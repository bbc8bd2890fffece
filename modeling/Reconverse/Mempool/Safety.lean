import Reconverse.Mempool.Steps

/-!
# Safety of the pool

In every run in which `removeblocks` is not called the pool keeps its representation invariant.
`removeblocks` itself goes by the counters of the blocks: `mempool_malloc` adds the power of the
slot and `mempool_free` takes off its size, so that the counter of a block can be 0 while the
block has live allocations.
-/

namespace Reconverse.Mempool

open Lib Lib.DList List State

variable {s s' : State} {bs : List BlockDesc} {ls : List Range} {e : Event} {es : List Event}
  {old pool : Pool} {poolSize limit : Nat} {b : BlockDesc} {removed : Option (List Int)}

/-! ## Runs without `removeblocks` -/

/-- In the beginning the pool has one block and nothing is allocated. -/
theorem State.initial_inv (hinit : mempoolInit old poolSize limit = some pool) :
    (State.initial pool).Inv [firstBlock poolSize] [] := by
  have hpool := init_inv hinit
  have hused : (usedCells [firstBlock poolSize]) = [] :=
    flatMap_eq_nil_iff.mpr fun b hb => by
      rw [mem_singleton.mp hb]
      exact filter_eq_nil_iff.mpr fun c hc => by simp [(mem_fresh_cells hc).2]
  refine ⟨hpool, ?_, ?_, nofun, fun b hb => ?_⟩
  · rw [initial, hpool.size]
    simp [ranges, firstBlock]
  · rw [livePtrs, hused]
    exact .refl _
  · rw [mem_singleton.mp hb]
    simp only [mempoolInit, bind, Option.bind_eq_some_iff] at hinit
    obtain ⟨r, -, hr⟩ := hinit
    cases hr
    refine ⟨?_, ?_, Nat.le_refl _⟩
    · exact (Function.update_self (0 : Int) (0 : BitVec 64) old.blocks.used).trans
        (BitVec.sub_self _).symm
    · rw [show (firstBlock poolSize).used = [] by simpa [usedCells] using hused]
      rfl

/-- The first block is cut as `fillblock` cuts it. -/
theorem State.initial_tidy : (State.initial pool).Tidy [firstBlock poolSize] := by
  intro b hb
  rw [mem_singleton.mp hb]
  exact ⟨fun _ => rfl, fun hne => absurd rfl hne⟩

/-- Every call that is allowed returns. -/
theorem State.Inv.call_returns (h : s.Inv bs ls) (hallowed : Allowed s.owned s.live e) :
    (s.call e).isSome := by
  cases e with
  | malloc size expand newblock =>
    obtain ⟨removed, gone, kept, -, -, -, hserve⟩ := h.malloc size expand
    obtain ⟨o, hcall, -⟩ := hserve newblock (hallowed.mono fun r hr => mem_of_mem_filter hr)
    simp only [call, hcall]
    rfl
  | free ptr =>
    obtain ⟨s', -, -, hcall, -⟩ := h.free hallowed
    rw [hcall]
    rfl
  | write junk => rfl

/-- A call in which `removeblocks` gives back only blocks without used slots keeps the invariant. -/
theorem State.Inv.call (h : s.Inv bs ls)
    (hallowed : Allowed (s.owned.filter fun r => r.base ∉ removed.getD []) s.live e)
    (hcall : s.call e = some (s', removed)) :
    ∃ gone kept, bs.Perm (gone ++ kept) ∧ Removes s.pool bs gone removed ∧
      ((∀ d ∈ gone, d.used = []) → ∃ bs' ls', s'.Inv bs' ls' ∧ (s.Tidy bs → s'.Tidy bs')) := by
  cases e with
  | malloc size expand newblock =>
    obtain ⟨removed', gone, kept, hperm, hremoves, hdet, hserve⟩ := h.malloc size expand
    simp only [call, bind, Option.bind_eq_some_iff] at hcall
    obtain ⟨o, ho, hcall⟩ := hcall
    cases hcall
    rw [← hdet _ o ho] at hremoves
    rw [hremoves.bases] at hallowed
    obtain ⟨o', ho', hinv⟩ := hserve newblock hallowed
    obtain rfl := Option.mem_unique ho' ho
    exact ⟨gone, kept, hperm, hremoves, hinv⟩
  | free ptr =>
    obtain ⟨s'', bs', ls', hfree, hinv⟩ := h.free hallowed
    rw [hfree] at hcall
    cases hcall
    exact ⟨[], bs, .refl _, .none, fun _ => ⟨bs', ls', hinv⟩⟩
  | write junk =>
    cases hcall
    exact ⟨[], bs, .refl _, .none, fun _ => ⟨bs, ls, h.write junk, id⟩⟩

/-- A call that removes no block keeps the invariant. -/
theorem QuietStep.inv (hstep : QuietStep s e s') (h : ∃ bs ls, s.Inv bs ls) :
    ∃ bs ls, s'.Inv bs ls := by
  obtain ⟨bs, ls, h⟩ := h
  obtain ⟨gone, -, -, hremoves, hinv⟩ :=
    h.call (hstep.1.mono fun r hr => mem_of_mem_filter hr) hstep.2
  obtain rfl := map_eq_nil_iff.mp hremoves.bases.symm
  obtain ⟨bs', ls', h', -⟩ := hinv nofun
  exact ⟨bs', ls', h'⟩

/-- In every run without `removeblocks` the pool keeps its representation invariant: it consists of
blocks and large blocks that do not overlap, every block is tiled by its slots, the freelists have
exactly the free slots, every live allocation is one used slot (or one large block), and the size
is the sum of all sizes. No two live allocations overlap, and every call returns. -/
theorem pool_keeps_invariant (hinit : mempoolInit old poolSize limit = some pool)
    (hrun : Steps QuietStep (State.initial pool) es s) :
    (∃ bs ls, s.Inv bs ls) ∧ (s.live.map Range.base).Nodup ∧ s.live.Pairwise Range.Apart ∧
      ∀ e, Allowed s.owned s.live e → (s.call e).isSome := by
  have hinv : ∃ bs ls, s.Inv bs ls :=
    hrun.invariant (I := fun s => ∃ bs ls, s.Inv bs ls) (fun _ _ _ h hstep => QuietStep.inv hstep h)
      ⟨_, _, initial_inv hinit⟩
  obtain ⟨bs, ls, h⟩ := hinv
  exact ⟨⟨bs, ls, h⟩, h.live_nodup, h.live_apart, fun e he => h.call_returns he⟩

/-- A pool of one slot, which is handed out and freed. -/
theorem pool_of_one_slot : ∃ pool s, mempoolInit default 368 0 = some pool ∧
    Steps QuietStep (State.initial pool) [.malloc 16 false none, .free 352] s ∧
    ∃ bs ls, s.Inv bs ls := by
  have hrun : ((mempoolInit default 368 0).bind fun pool => [Event.malloc 16 false none,
      .free 352].foldlM (next fun _ => False) (initial pool)).isSome := by decide
  obtain ⟨s, hs⟩ := Option.isSome_iff_exists.mp hrun
  obtain ⟨pool, hinit, hs⟩ := Option.bind_eq_some_iff.mp hs
  have hsteps := (Steps.of_foldlM hs).mono fun _ _ _ h => quiet_step_of_next h
  exact ⟨pool, s, hinit, hsteps, (pool_keeps_invariant hinit hsteps).1⟩

/-! ## The slots that are handed out -/

/-- A call takes a slot of the block `b` of the pool `p`: it is cut from the first free slot of the
least power that is large enough, and the pointer is behind the header of a slot of this power. -/
structure Outcome.Takes (o : Outcome) (p : Pool) (b : BlockDesc) (power : Nat) : Prop where
  least : ∃ c ∈ b.cells, c.free = true ∧ power ≤ c.power ∧
    (∀ d ∈ b.cells, d.free = true → power ≤ d.power → c.power ≤ d.power) ∧
    p.blocks.freelists b.base c.power = c.pos ∧
    let (fl, mem) := if c.power = power then (p.blocks.freelists b.base, p.slots)
      else splitSlot p.slots b.base (p.blocks.freelists b.base) power c.power
    let (pool, ptr) := takeSlot (p.setBlock b.base fl mem) b.base power
    o.pool = pool ∧ o.ptr = some ptr
  slot : ∃ bs ls, PoolInv o.pool bs ls ∧ ∃ c ∈ usedCells bs, c.power = power ∧
    o.ptr = some (c.pos + sizeofUsedHeader)

/-- A slot that is taken is a smallest one that is large enough. -/
theorem PoolInv.takes {bs₁ bs₂ : List BlockDesc} {power : Nat} {r : Freelists × Slots} {o : Outcome}
    (h : PoolInv pool (bs₁ ++ b :: bs₂) ls) (hpower : power < cutOffNum)
    (hr : checkblock pool.slots b.base (pool.blocks.freelists b.base) power = some r)
    (ho : o.pool = (takeSlot (pool.setBlock b.base r.1 r.2) b.base power).1 ∧
      o.ptr = some (takeSlot (pool.setBlock b.base r.1 r.2) b.base power).2) :
    o.Takes pool b power := by
  constructor
  case least =>
    obtain ⟨c, hc, hfree, hle, hleast, hhead, heq⟩ :=
      checkblock_least (h.ok b (by simp)).inv hpower hr
    exact ⟨c, hc, hfree, hle, hleast, hhead, heq ▸ ho⟩
  case slot =>
    obtain ⟨pre, c, post, hused, hpow, hinv, hptr, -⟩ := h.take hpower hr
    refine ⟨_, _, ho.1 ▸ hinv, c, mem_used_cells.mpr ⟨{ b with cells := pre ++ c :: post }, ?_⟩,
      hpow, hptr ▸ ho.2⟩
    simp [hused]

/-- In every state that is reached without `removeblocks`, a request below the large threshold gets
a slot of the least power that holds it and the header. If some block has a free slot of this power
or a larger one, such a block is used. Otherwise the request fails without `expand`, and with
`expand` it gets a slot of the new block, if there is one that `fillblock` accepts. -/
theorem malloc_best_fit (hinit : mempoolInit old poolSize limit = some pool)
    (hrun : Steps QuietStep (State.initial pool) es s) (size : Nat)
    (hpower : powerOf size < cutOffNum) : ∃ bs ls, s.Inv bs ls ∧
      (size + sizeofUsedHeader ≤ cutOffPoints (powerOf size) ∧
        ∀ p < powerOf size, cutOffPoints p < size + sizeofUsedHeader) ∧
      ((∃ b ∈ bs, ∃ c ∈ b.cells, c.free = true ∧ powerOf size ≤ c.power) →
        ∃ b ∈ bs, ∀ expand newblock, ∃ o, mempoolMalloc s.pool size expand newblock = some o ∧
          o.Takes s.pool b (powerOf size)) ∧
      ((∀ b ∈ bs, ∀ c ∈ b.cells, c.free = true → c.power < powerOf size) →
        (∀ newblock, mempoolMalloc s.pool size false newblock = some ⟨s.pool, none, none, none⟩) ∧
        ∀ new : Range, requested size ≤ new.size →
          (∀ r ∈ s.owned, r.base ∉ ((trim s.pool).bind Prod.snd).getD [] → r.Apart new) →
          fillblock s.pool.slots new.base new.size true ≠ none →
          ∃ o p, mempoolMalloc s.pool size true (some (new.base, new.size)) = some o ∧
            o.Takes p (newBlock new) (powerOf size)) := by
  obtain ⟨bs, ls, h⟩ : ∃ bs ls, s.Inv bs ls :=
    hrun.invariant (I := fun s => ∃ bs ls, s.Inv bs ls) (fun _ _ _ h hstep => QuietStep.inv hstep h)
      ⟨_, _, initial_inv hinit⟩
  have hle : size + sizeofUsedHeader ≤ cutOffPoints (powerOf size) :=
    le_cut_off_which_pow2 hpower.le
  have hmax : cutOffPoints (powerOf size) ≤ 2 ^ 30 := cut_off_mono hpower.le
  refine ⟨bs, ls, h, ⟨hle, (which_pow2_spec (hle.trans hmax)).2.2⟩,
    fun ⟨b, hb, c, hc, hfree, hge⟩ => ?_, fun hnone => ?_⟩
  · obtain ⟨hall, -⟩ | ⟨bs₁, d, bs₂, r, rfl, hcheck, hcall⟩ := h.pool.malloc_cases hpower
    · have := checkblock_none (h.pool.ok b hb).inv (hall b hb) hc hfree
      omega
    · refine ⟨d, by simp, fun expand newblock => ?_⟩
      exact ⟨_, hcall .., h.pool.takes hpower hcheck ⟨rfl, rfl⟩⟩
  · obtain ⟨-, hcall⟩ | ⟨bs₁, d, bs₂, r, rfl, hcheck, -⟩ := h.pool.malloc_cases hpower
    · refine ⟨hcall false, fun new hfits hnew hfill => ?_⟩
      obtain ⟨pool', removed, gone, kept, htrim, hremoves, hpool, hperm, -⟩ := h.pool.trim
      rw [htrim, Option.bind_some, hremoves.bases] at hnew
      rw [requested, if_pos hpower] at hfits
      obtain ⟨_, hfill⟩ := Option.ne_none_iff_exists'.mp hfill
      have hsmall := (fillblock_fits hfill).2
      rw [taken_true] at hsmall
      have hfresh : ∀ r ∈ ranges kept ls, r.Apart new := fun r hr => by
        obtain ⟨howned, hkept⟩ := mem_filter.mp ((h.owned_drop hperm).mem_iff.mpr hr)
        exact hnew r howned (of_decide_eq_true hkept)
      obtain ⟨pool'', r, hadd, hcheck, hgrown, -⟩ := hpool.grow hfresh hfits (by omega)
      exact ⟨_, pool'', (hcall ..).trans (expand_eq htrim hadd hcheck),
        hgrown.takes (b := newBlock new) hpower hcheck ⟨rfl, rfl⟩⟩
    · obtain ⟨c, hc, hfree, hge, -⟩ := checkblock_least (h.pool.ok d (by simp)).inv hpower hcheck
      have := hnone d (by simp) c hc hfree
      omega

/-- The slot of a pool of one slot is handed out and freed, and then handed out again. -/
theorem first_slot_fits : ∃ pool s bs ls b o, mempoolInit default 368 0 = some pool ∧
    Steps QuietStep (State.initial pool) [.malloc 16 false none, .free 352] s ∧ s.Inv bs ls ∧
    b ∈ bs ∧ mempoolMalloc s.pool 16 false none = some o ∧ o.ptr = some 352 ∧
    o.Takes s.pool b (powerOf 16) := by
  have hrun : ((mempoolInit default 368 0).bind fun pool => [Event.malloc 16 false none,
      .free 352].foldlM (next fun _ => False) (initial pool)).any (fun s =>
        (mempoolMalloc s.pool 16 false none).bind Outcome.ptr = some 352) = true := by decide
  obtain ⟨s, hs, hptr⟩ := (Option.any_eq_true ..).mp hrun
  obtain ⟨pool, hinit, hs⟩ := Option.bind_eq_some_iff.mp hs
  have hsteps := (Steps.of_foldlM hs).mono fun _ _ _ h => quiet_step_of_next h
  obtain ⟨o, ho, hptr⟩ := Option.bind_eq_some_iff.mp (of_decide_eq_true hptr)
  obtain ⟨bs, ls, h, -, hfits, hfails⟩ := malloc_best_fit hinit hsteps 16 (by decide)
  by_cases hslot : ∃ b ∈ bs, ∃ c ∈ b.cells, c.free = true ∧ powerOf 16 ≤ c.power
  · obtain ⟨b, hb, htakes⟩ := hfits hslot
    obtain ⟨o', ho', htakes⟩ := htakes false none
    obtain rfl := Option.mem_unique ho' ho
    exact ⟨pool, s, bs, ls, b, o', hinit, hsteps, h, hb, ho, hptr, htakes⟩
  · have hnone := (hfails fun b hb c hc hfree =>
      Nat.lt_of_not_le fun hle => hslot ⟨b, hb, c, hc, hfree, hle⟩).1 none
    rw [Option.mem_unique ho hnone] at hptr
    cases hptr

/-! ## The blocks that `removeblocks` gives back -/

/-- The counter of a block does not vanish while the block has a live allocation: the sum of the
powers handed out and the sum of the sizes freed are different modulo `2 ^ 64`. -/
def State.Sound (s : State) : Prop :=
  ∀ r ∈ s.owned, ∀ a ∈ s.live, powerOf a.size < cutOffNum → r.Contains a.base →
    BitVec.ofNat 64 (s.given r.base) ≠ BitVec.ofNat 64 (s.back r.base)

section

variable (h : s.Inv bs ls) {p : Int}

include h

/-- Two ranges of the pool that have a place in common are the same. -/
theorem State.Inv.contains_unique {r r' : Range} (hr : r ∈ ranges bs ls)
    (hr' : r' ∈ ranges bs ls) (hp : r.Contains p) (hp' : r'.Contains p) : r = r' := by
  refine Decidable.byContradiction fun hne => ?_
  have hapart := h.pool.apart.forall hr hr' hne
  simp only [Range.Apart, Range.Contains] at hapart hp hp'
  omega

/-- A large block is not one of the blocks. -/
theorem State.Inv.not_large {l : Range} (hb : b ∈ bs) (hl : l ∈ ls)
    (hp : b.toRange.Contains p) (hp' : l.Contains p) : False := by
  have hsame := h.contains_unique (mem_append_left _ (mem_map_of_mem hb))
    (mem_append_right _ hl) hp hp'
  have hnodup := h.pool.bases_nodup
  rw [bases_ranges, nodup_append] at hnodup
  exact hnodup.2.2 _ (mem_map_of_mem hb) _ (mem_map_of_mem hl) (congrArg _ hsame)

/-- The block or large block that has an allocation. -/
theorem State.Inv.live_inside {a : Range} (ha : a ∈ s.live) :
    (∃ b ∈ bs, b.toRange.Contains a.base ∧ a.base + a.size ≤ b.base + b.size ∧
      powerOf a.size < cutOffNum) ∨
    ∃ l ∈ ls, l.Contains a.base ∧ a.base + a.size ≤ l.base + l.size ∧
      cutOffNum ≤ powerOf a.size := by
  rcases h.fits a ha with ⟨c, hc, hbase, hpow⟩ | ⟨l, hl, hbase, hsize, hpower⟩
  · obtain ⟨b, hb, hcb, -⟩ := mem_used_cells.mp hc
    have hlt := (h.pool.ok b hb).inv.row.powers c hcb
    have hin := (h.pool.ok b hb).inside hcb
    have hfits := le_cut_off_which_pow2 (Nat.le_of_lt (hpow ▸ hlt))
    refine .inl ⟨b, hb, ?_, ?_, hpow ▸ hlt⟩
    · rw [hbase]
      exact (h.pool.ok b hb).contains_ptr hcb
    · rw [Cell.size, hpow, powerOf] at hin
      omega
  · refine .inr ⟨l, hl, ?_, by omega, hpower⟩
    rw [hbase]
    exact large_contains_ptr hpower hsize

/-- The counters are sound if and only if no block with counter 0 has a live allocation. -/
theorem State.Inv.sound_iff : s.Sound ↔
    ∀ b ∈ bs, s.pool.blocks.used b.base = 0 → ∀ a ∈ s.live, ¬ b.toRange.Contains a.base := by
  have hblock : ∀ b ∈ bs, b.toRange ∈ ranges bs ls := fun b hb =>
    mem_append_left _ (mem_map_of_mem hb)
  have hzero : ∀ b ∈ bs, s.pool.blocks.used b.base = 0 ↔
      BitVec.ofNat 64 (s.given b.base) = BitVec.ofNat 64 (s.back b.base) := fun b hb => by
    rw [(h.counters b hb).1]
    exact ⟨fun h0 => by bv_omega, fun heq => by rw [heq, BitVec.sub_self]; rfl⟩
  refine ⟨fun hsound b hb hused a ha hin => ?_, fun hfree r hr a ha hpower hin heq => ?_⟩
  · rcases h.live_inside ha with ⟨-, -, -, -, hpower⟩ | ⟨l, hl, hin', -, -⟩
    · exact hsound b.toRange (h.owned.mem_iff.mpr (hblock b hb)) a ha hpower hin
        ((hzero b hb).mp hused)
    · exact h.not_large hb hl hin hin'
  · rcases h.live_inside ha with ⟨b, hb, hin', -, -⟩ | ⟨-, -, -, -, hlarge⟩
    · obtain rfl := h.contains_unique (h.owned.mem_iff.mp hr) (hblock b hb) hin hin'
      exact hfree b hb ((hzero b hb).mpr heq) a ha hin
    · omega

/-- A block without live allocations has no used slot and overlaps no live allocation. -/
theorem State.Inv.unused_block (hb : b ∈ bs) (hfree : ∀ a ∈ s.live, ¬ b.toRange.Contains a.base) :
    b.used = [] ∧ ∀ a ∈ s.live, b.toRange.Apart a := by
  have hblock : b.toRange ∈ ranges bs ls := mem_append_left _ (mem_map_of_mem hb)
  refine ⟨eq_nil_iff_forall_not_mem.mpr fun c hc => ?_, fun a ha => ?_⟩
  · have hcell : c ∈ usedCells bs := mem_flatMap.mpr ⟨b, hb, hc⟩
    have hptr : c.pos + (sizeofUsedHeader : Int) ∈ s.live.map Range.base :=
      h.live.mem_iff.mpr (mem_append_left _ (mem_map_of_mem hcell))
    obtain ⟨a, ha, hbase⟩ := mem_map.mp hptr
    refine hfree a ha ?_
    rw [hbase]
    exact (h.pool.ok b hb).contains_ptr (mem_of_mem_filter hc)
  · obtain ⟨r, hr, hin, hend⟩ : ∃ r ∈ ranges bs ls, r.Contains a.base ∧
        a.base + a.size ≤ r.base + r.size := by
      rcases h.live_inside ha with ⟨b', hb', hin, hend, -⟩ | ⟨l, hl, hin, hend, -⟩
      · exact ⟨_, mem_append_left _ (mem_map_of_mem hb'), hin, hend⟩
      · exact ⟨l, mem_append_right _ hl, hin, hend⟩
    have hne : b.toRange ≠ r := fun heq => hfree a ha (heq ▸ hin)
    have hapart := h.pool.apart.forall hblock hr hne
    simp only [Range.Apart, Range.Contains] at hapart hin ⊢
    omega

/-- From a sound state `removeblocks` gives back only blocks without used slots. -/
theorem State.Inv.removed_unused (hsound : removed ≠ none → s.Sound)
    (hallowed : Allowed (s.owned.filter fun r => r.base ∉ removed.getD []) s.live e)
    (hcall : s.call e = some (s', removed)) :
    (∀ base ∈ removed.getD [], ∃ b ∈ bs, b.base = base ∧ b.used = [] ∧
      ∀ a ∈ s.live, b.toRange.Apart a) ∧ ∃ bs' ls', s'.Inv bs' ls' ∧ (s.Tidy bs → s'.Tidy bs') := by
  obtain ⟨gone, kept, hperm, hremoves, hinv⟩ := h.call hallowed hcall
  have hgone : ∀ d ∈ gone, d.used = [] ∧ ∀ a ∈ s.live, d.toRange.Apart a := fun d hd => by
    have hd' : d ∈ bs := hperm.mem_iff.mpr (mem_append_left _ hd)
    have hcalled : removed ≠ none := by
      rintro rfl
      rw [map_eq_nil_iff.mp hremoves.bases.symm] at hd
      cases hd
    exact h.unused_block hd' (h.sound_iff.mp (hsound hcalled) d hd' (hremoves.zero d hd).2)
  refine ⟨fun base hbase => ?_, hinv fun d hd => (hgone d hd).1⟩
  rw [hremoves.bases] at hbase
  obtain ⟨d, hd, rfl⟩ := mem_map.mp hbase
  exact ⟨d, hperm.mem_iff.mpr (mem_append_left _ hd), rfl, hgone d hd⟩

/-- Nothing was handed out from a block if and only if its counter is 0 and none of its slots is
used, unless the counter has wrapped. -/
theorem State.Inv.unused_iff (hb : b ∈ bs) (hzero : s.pool.blocks.used b.base = 0)
    (hback : s.back b.base < 2 ^ 64) : b.used = [] ↔ s.out b.base = 0 := by
  obtain ⟨hcounter, hout, hpowers⟩ := h.counters b hb
  rw [hcounter] at hzero
  constructor
  · intro hnone
    rw [hnone, total_nil] at hout
    have heq : BitVec.ofNat 64 (s.given b.base) = BitVec.ofNat 64 (s.back b.base) := by bv_omega
    have hnat := congrArg BitVec.toNat heq
    rw [BitVec.toNat_ofNat, BitVec.toNat_ofNat, Nat.mod_eq_of_lt hback, Nat.mod_eq_of_lt (by omega)]
      at hnat
    omega
  · intro hnone
    rw [eq_nil_iff_forall_not_mem]
    intro c hc
    obtain ⟨pre, post, hsplit⟩ := append_of_mem hc
    have := size_pos c
    rw [hsplit, total_append, total_cons] at hout
    omega

end

/-- The blocks from `current` on, in the order in which `removeblocks` walks along them. -/
def Blocks.walk (b : Blocks) : (fuel : Nat) → (current : Int) → List Int
  | 0, _ => []
  | fuel + 1, current => if current = 0 then [] else current :: b.walk fuel (b.blockNext current)

/-- No block behind the first one has counter 0. -/
def State.Counting (s : State) : Prop :=
  ∀ blk ∈ s.pool.blocks.walk s.pool.fuel (s.pool.blocks.blockNext 0), s.pool.blocks.used blk ≠ 0

instance : DecidablePred State.Counting := fun s =>
  inferInstanceAs (Decidable (∀ _ ∈ _, s.pool.blocks.used _ ≠ 0))

/-- A walk over the links of the blocks finds all blocks. -/
theorem walk_eq {blocks : Blocks} {fuel : Nat} {a : Int} {l : List Int}
    (h : Linked blocks.blockNext blocks.blockPrev a l 0) (hne : ∀ x ∈ l, x ≠ 0)
    (hfuel : l.length < fuel) : blocks.walk fuel (l.headD 0) = l := by
  induction l generalizing a fuel with
  | nil =>
    cases fuel with
    | zero => rfl
    | succ fuel => rfl
  | cons x l ih =>
    obtain ⟨fuel, rfl⟩ := exists_fuel hfuel
    rw [headD_cons, Blocks.walk, if_neg (hne x mem_cons_self), h.2.1,
      ih h.2.2 (fun y hy => hne y (mem_cons_of_mem _ hy)) (Nat.lt_of_succ_lt_succ hfuel)]

/-- The counters as the walk of `removeblocks` reads them. -/
theorem State.Inv.counting_iff (h : s.Inv bs ls) :
    s.Counting ↔ ∀ b ∈ bs, b.base ≠ 0 → s.pool.blocks.used b.base ≠ 0 := by
  obtain ⟨first, rest, rfl, hzero⟩ := h.pool.first
  have hbehind := h.pool.behind_ne_zero hzero
  have hlength := h.pool.fuel_blocks
  have hwalk : s.pool.blocks.walk s.pool.fuel (s.pool.blocks.blockNext 0) = rest.map (·.base) := by
    have hnext : s.pool.blocks.blockNext first.base = (rest.map (·.base)).headD 0 :=
      h.pool.chain.2.1
    rw [hzero] at hnext
    rw [hnext]
    refine walk_eq h.pool.chain.2.2 (fun x hx => ?_) ?_
    · obtain ⟨d, hd, rfl⟩ := mem_map.mp hx
      exact hbehind d hd
    · rw [length_map]
      exact Nat.lt_of_succ_lt hlength
  rw [Counting, hwalk]
  constructor
  · intro hcounting b hb hbase
    rcases mem_cons.mp hb with rfl | hb
    · exact absurd hzero hbase
    · exact hcounting b.base (mem_map_of_mem hb)
  · intro hcounting blk hblk
    obtain ⟨d, hd, rfl⟩ := mem_map.mp hblk
    exact hcounting d (mem_cons_of_mem _ hd) (hbehind d hd)

/-- If no block behind the first one has counter 0 when `removeblocks` is called, it gives back
nothing. -/
theorem State.Inv.keeps_all (h : s.Inv bs ls) (hcounting : removed ≠ none → s.Counting)
    (hallowed : Allowed (s.owned.filter fun r => r.base ∉ removed.getD []) s.live e)
    (hcall : s.call e = some (s', removed)) :
    removed.getD [] = [] ∧ ∃ bs' ls', s'.Inv bs' ls' ∧ (s.Tidy bs → s'.Tidy bs') := by
  obtain ⟨gone, kept, hperm, hremoves, hinv⟩ := h.call hallowed hcall
  obtain rfl : gone = [] := eq_nil_iff_forall_not_mem.mpr fun d hd => by
    have hcalled : removed ≠ none := by
      rintro rfl
      rw [map_eq_nil_iff.mp hremoves.bases.symm] at hd
      cases hd
    obtain ⟨hbase, hzero⟩ := hremoves.zero d hd
    exact h.counting_iff.mp (hcounting hcalled) d
      (hperm.mem_iff.mpr (mem_append_left _ hd)) hbase hzero
  exact ⟨hremoves.bases, hinv (forall_mem_nil _)⟩

/-- In every run in which no block behind the first one has counter 0 when `removeblocks` is called,
nothing is given back. Any other call gives back a block that is in use, unless the counter of the
block has wrapped: at every moment, a block with counter 0 is without used slots if and only if
nothing was ever handed out from it, and from each block behind the first one a slot was handed out
at once. -/
theorem removes_only_unused_blocks (hinit : mempoolInit old poolSize limit = some pool)
    (hrun : Steps (GuardedStep State.Counting) (State.initial pool) es s) :
    ∃ bs ls, s.Inv bs ls ∧
      (∀ b ∈ bs, s.back b.base < 2 ^ 64 →
        ((s.pool.blocks.used b.base = 0 → b.used = []) ↔
          (s.pool.blocks.used b.base = 0 → s.out b.base = 0))) ∧
      ∀ e s' removed, s.call e = some (s', removed) →
        Allowed (s.owned.filter fun r => r.base ∉ removed.getD []) s.live e →
        ((removed ≠ none → s.Counting) → removed.getD [] = []) ∧
        ((∀ b ∈ bs, s.back b.base < 2 ^ 64) →
          (∀ base ∈ removed.getD [], ∃ b ∈ bs, b.base = base ∧ b.used = [] ∧
            ∀ a ∈ s.live, b.toRange.Apart a) → removed ≠ none → s.Counting) := by
  have hinv : ∃ bs ls, s.Inv bs ls ∧ s.Tidy bs := by
    refine hrun.invariant (I := fun s => ∃ bs ls, s.Inv bs ls ∧ s.Tidy bs) ?_
      ⟨_, _, initial_inv hinit, initial_tidy⟩
    rintro s e s' ⟨bs, ls, h, htidy⟩ ⟨removed, hcall, hallowed, hcounting⟩
    obtain ⟨-, bs', ls', h', htidy'⟩ := h.keeps_all hcounting hallowed hcall
    exact ⟨bs', ls', h', htidy' htidy⟩
  obtain ⟨bs, ls, h, htidy⟩ := hinv
  refine ⟨bs, ls, h, fun b hb hback => forall_congr' fun hzero => h.unused_iff hb hzero hback,
    fun e s' removed hcall hallowed => ⟨fun hcounting => (h.keeps_all hcounting hallowed hcall).1,
      fun hback hunused hcalled => ?_⟩⟩
  obtain ⟨gone, kept, hperm, hremoves, -⟩ := h.call hallowed hcall
  obtain ⟨bases, rfl⟩ := Option.ne_none_iff_exists'.mp hcalled
  -- A block that was given back would be without used slots although a slot was handed out from it.
  obtain rfl : bases = [] := eq_nil_iff_forall_not_mem.mpr fun base hbase => by
    obtain ⟨b, hb, rfl, hnone, -⟩ := hunused base hbase
    have hgone : b.base ∈ gone.map (·.base) :=
      hremoves.bases ▸ (show b.base ∈ (some bases).getD [] from hbase)
    obtain ⟨d, hd, heq⟩ := mem_map.mp hgone
    obtain ⟨hne, hzero⟩ := hremoves.zero d hd
    rw [heq] at hne hzero
    exact (htidy b hb).2 hne ((h.unused_iff hb hzero (hback b hb)).mp hnone)
  exact h.counting_iff.mpr (hremoves.none_zero rfl)

/-- A pool whose blocks are in use and have counter 1. The last call walks along them and gives back
none. -/
theorem blocks_in_use_kept : ∃ pool s s', mempoolInit default 432 1 = some pool ∧
    Steps (GuardedStep State.Counting) (State.initial pool) [.malloc 80 false none,
      .malloc 80 true (some ⟨1000, 368⟩), .malloc 80 true (some ⟨2000, 368⟩)] s ∧
    s.call (.malloc 80 true (some ⟨3000, 368⟩)) = some (s', some []) ∧ s.live.length = 3 ∧
    ∃ bs ls, s.Inv bs ls ∧ ∀ b ∈ bs, s.back b.base < 2 ^ 64 →
      s.pool.blocks.used b.base = 0 → (b.used = [] ↔ s.out b.base = 0) := by
  have hrun : ((mempoolInit default 432 1).bind fun pool => [Event.malloc 80 false none,
      .malloc 80 true (some ⟨1000, 368⟩), .malloc 80 true (some ⟨2000, 368⟩)].foldlM
      (next State.Counting) (initial pool)).any (fun s => s.live.length = 3 ∧
        (s.call (.malloc 80 true (some ⟨3000, 368⟩))).map Prod.snd = some (some [])) = true := by
    decide
  obtain ⟨s, hs, hlast⟩ := (Option.any_eq_true ..).mp hrun
  obtain ⟨pool, hinit, hs⟩ := Option.bind_eq_some_iff.mp hs
  obtain ⟨hlive, hremoved⟩ := of_decide_eq_true hlast
  obtain ⟨⟨s', removed⟩, hcall, heq⟩ := Option.map_eq_some_iff.mp hremoved
  obtain rfl : removed = some [] := heq
  have hsteps := (Steps.of_foldlM hs).mono fun _ _ _ h => guarded_step_of_next h
  obtain ⟨bs, ls, h, hunused, -⟩ := removes_only_unused_blocks hinit hsteps
  refine ⟨pool, s, s', hinit, hsteps, hcall, hlive, bs, ls, h, fun b hb hback hzero => ?_⟩
  have hiff := hunused b hb hback
  exact ⟨fun hnone => hiff.mp (fun _ => hnone) hzero, fun hnone => hiff.mpr (fun _ => hnone) hzero⟩

/-- A pool with limit 1 whose second block was obtained for a request of 16 bytes. The slot has
power 0, so the counter of the block stays 0, and the next expansion gives the block back while
the allocation at offset 1288 in it is live. -/
theorem removes_block_in_use : ∃ pool s s', mempoolInit default 368 1 = some pool ∧
    Steps CallStep (State.initial pool)
      [.malloc 16 false none, .malloc 16 true (some ⟨1000, 304⟩)] s ∧
    s.call (.malloc 16 true (some ⟨2000, 304⟩)) = some (s', some [1000]) ∧
    Allowed (s.owned.filter fun r => r.base ∉ [1000]) s.live (.malloc 16 true (some ⟨2000, 304⟩)) ∧
    (⟨1000, 304⟩ : Range) ∈ s.owned ∧ (⟨1288, 16⟩ : Range) ∈ s.live := by
  have hrun : ((mempoolInit default 368 1).bind fun pool => [Event.malloc 16 false none,
      .malloc 16 true (some ⟨1000, 304⟩)].foldlM (next fun _ => True) (initial pool)).any
      (fun s => (s.call (.malloc 16 true (some ⟨2000, 304⟩))).map Prod.snd = some (some [1000]) ∧
        Allowed (s.owned.filter fun r => r.base ∉ [1000]) s.live
          (.malloc 16 true (some ⟨2000, 304⟩)) ∧
        (⟨1000, 304⟩ : Range) ∈ s.owned ∧ (⟨1288, 16⟩ : Range) ∈ s.live) = true := by decide
  obtain ⟨s, hs, hlast⟩ := (Option.any_eq_true ..).mp hrun
  obtain ⟨pool, hinit, hs⟩ := Option.bind_eq_some_iff.mp hs
  obtain ⟨hremoved, hallowed, howned, hlive⟩ := of_decide_eq_true hlast
  obtain ⟨⟨s', removed⟩, hcall, heq⟩ := Option.map_eq_some_iff.mp hremoved
  obtain rfl : removed = some [1000] := heq
  exact ⟨pool, s, s', hinit, (Steps.of_foldlM hs).mono fun _ _ _ h => call_step_of_next h, hcall,
    hallowed, howned, hlive⟩

/-! ## Blocks without live allocations -/

instance (s : State) : Decidable s.Sound :=
  inferInstanceAs (Decidable (∀ r ∈ s.owned, ∀ a ∈ s.live, _ → _ → _))

/-- The slots of a block after one of them was freed: the maximal run of free slots around it is cut
into slots of decreasing powers. -/
theorem State.Inv.freed_run (h : s.Inv bs ls) (hb : b ∈ bs) {ptr : Int}
    (hptr : ptr ∈ s.live.map Range.base) (hin : b.toRange.Contains ptr) :
    ∃ pool' pre run post, mempoolFree s.pool ptr = some (pool', none) ∧
      BlockDesc.Ok pool' { b with cells := pre ++ run ++ post } ∧
      (∃ d ∈ run, d.pos ≤ ptr ∧ ptr < d.pos + d.size) ∧ (∀ d ∈ run, d.free = true) ∧
      (∀ d, pre.getLast? = some d → d.free = false) ∧ (∀ d, post.head? = some d → d.free = false) ∧
      run.Pairwise fun c d => d.power < c.power := by
  obtain ⟨a, ha, rfl⟩ := mem_map.mp hptr
  rcases h.fits a ha with ⟨c, hc, hbase, -⟩ | ⟨l, hl, hbase, hsize, hpower⟩
  · obtain ⟨b', hb', hcb, hused⟩ := mem_used_cells.mp hc
    have hok := h.pool.ok b' hb'
    obtain rfl : b = b' := by
      have hrange := h.contains_unique (mem_append_left _ (mem_map_of_mem hb))
        (mem_append_left _ (mem_map_of_mem hb')) hin (hbase ▸ hok.contains_ptr hcb)
      have hnodup := h.pool.bases_nodup
      rw [bases_ranges, nodup_append] at hnodup
      exact inj_on_of_nodup_map hnodup.1 hb hb' (congrArg Range.base hrange)
    obtain ⟨bs₁, bs₂, rfl⟩ := append_of_mem hb
    obtain ⟨pre, post, hsplit⟩ := append_of_mem hcb
    obtain ⟨pool', cells, hcall, hpool, hfreed, -, -⟩ := h.pool.free_slot hsplit hused
    obtain ⟨pre₁, pre₂, post₁, post₂, rfl, rfl, -, hlast, hhead, rfl⟩ := hfreed
    refine ⟨pool', pre₁, _, post₂, hbase ▸ hcall, hpool.ok _ (mem_append_right _ mem_cons_self), ?_,
      fun d hd => (mem_greedy hd).2, hlast, hhead, greedy_sorted ..⟩
    -- The new slots take the place of the run in which the freed one was.
    have htiled := hok.inv.row.tiled
    have hsmall := hok.small
    have hfilled := hok.filled
    rw [hsplit, show pre₁ ++ pre₂ ++ c :: (post₁ ++ post₂) =
      pre₁ ++ ((pre₂ ++ c :: post₁) ++ post₂) by simp] at htiled hfilled
    obtain ⟨hrun, -⟩ := tiled_append.mp (tiled_append.mp htiled).2
    have hcell := hrun.bounds (c := c) (by simp)
    have hlt : total (pre₂ ++ c :: post₁) < 2 ^ 30 := by
      rw [total_append, total_append] at hfilled
      omega
    obtain ⟨hnew, htotal, -⟩ := fresh_run_spec (b.start + total pre₁) hlt (dvd_total _)
    rw [hrun.head_eq (by simp), hbase]
    have := size_pos c
    rw [sizeofUsedHeader]
    exact hnew.exists_cell (by omega) (by omega)
  · rw [hbase] at hin
    exact (h.not_large hb hl hin (large_contains_ptr hpower hsize)).elim

/-- A block without used slots is as `fillblock` made it, in whatever memory. -/
theorem State.Inv.restored (h : s.Inv bs ls) (htidy : s.Tidy bs) (hb : b ∈ bs)
    (hunused : b.used = []) {mem mem' : Slots} {fl : Freelists}
    (hfill : fillblock mem b.base b.size (b.base != 0) = some (fl, mem')) :
    b.cells = b.fresh ∧ (∀ q < cutOffNum, s.pool.blocks.freelists b.base q = fl q) ∧
      ∀ c ∈ b.cells, Agree mem' s.pool.slots c.pos := by
  have hok := h.pool.ok b hb
  have hcells := (htidy b hb).1 hunused
  have hzero : 0 < b.base + taken (b.base != 0) ∨ b.base + b.size ≤ 0 := by
    obtain ⟨b₀, rest, hbs, hbase⟩ := h.pool.first
    have hb₀ : b₀ ∈ bs := hbs ▸ mem_cons_self
    by_cases heq : b.base = 0
    · rw [heq]
      exact .inl (by decide)
    · have := h.pool.apart_of_ne (mem_append_left _ (mem_map_of_mem hb))
        (mem_append_left _ (mem_map_of_mem hb₀)) (hbase ▸ heq)
      rw [Range.Apart] at this
      omega
  obtain ⟨mem₀, hfill₀, hinv, -⟩ := fillblock_spec mem b.base _ hok.fits hok.small hzero
  obtain ⟨rfl, rfl⟩ := Prod.mk.inj (Option.mem_unique hfill hfill₀)
  have hinv' := hok.inv
  rw [hcells] at hinv' ⊢
  have hpow : (b.fresh.map Cell.power).Nodup := by
    rw [BlockDesc.fresh, freshCells]
    exact greedy_powers_nodup ..
  obtain ⟨hfl, hagree⟩ := hinv.unique hinv' hpow fun d hd => (mem_fresh_cells hd).2
  exact ⟨rfl, hfl, hagree⟩

/-- In every run in which `removeblocks` is called from sound states only: a block in which nothing
is allocated has the slots, the headers and the freelists that `fillblock` gave to it, and every
`mempool_free` cuts the maximal run of free slots around the freed one into slots of strictly
decreasing powers. -/
theorem frees_restore_blocks (hinit : mempoolInit old poolSize limit = some pool)
    (hrun : Steps (GuardedStep State.Sound) (State.initial pool) es s) :
    ∃ bs ls, s.Inv bs ls ∧ ∀ b ∈ bs,
      ((∀ a ∈ s.live, ¬ b.toRange.Contains a.base) → ∀ mem fl mem',
        fillblock mem b.base b.size (b.base != 0) = some (fl, mem') →
        b.cells = freshCells b.base b.size (b.base != 0) ∧
        (∀ q < cutOffNum, s.pool.blocks.freelists b.base q = fl q) ∧
        ∀ c ∈ b.cells, Agree mem' s.pool.slots c.pos) ∧
      ∀ ptr ∈ s.live.map Range.base, b.toRange.Contains ptr →
        ∃ pool' pre run post, mempoolFree s.pool ptr = some (pool', none) ∧
          BlockDesc.Ok pool' { b with cells := pre ++ run ++ post } ∧
          (∃ d ∈ run, d.pos ≤ ptr ∧ ptr < d.pos + d.size) ∧ (∀ d ∈ run, d.free = true) ∧
          (∀ d, pre.getLast? = some d → d.free = false) ∧
          (∀ d, post.head? = some d → d.free = false) ∧
          run.Pairwise fun c d => d.power < c.power := by
  have hinv : ∃ bs ls, s.Inv bs ls ∧ s.Tidy bs := by
    refine hrun.invariant (I := fun s => ∃ bs ls, s.Inv bs ls ∧ s.Tidy bs) ?_
      ⟨_, _, initial_inv hinit, initial_tidy⟩
    rintro s e s' ⟨bs, ls, h, htidy⟩ ⟨removed, hcall, hallowed, hsound⟩
    obtain ⟨-, bs', ls', h', htidy'⟩ := h.removed_unused hsound hallowed hcall
    exact ⟨bs', ls', h', htidy' htidy⟩
  obtain ⟨bs, ls, h, htidy⟩ := hinv
  refine ⟨bs, ls, h, fun b hb => ⟨fun hfree mem fl mem' hfill => ?_, fun ptr hptr hin => ?_⟩⟩
  · exact h.restored htidy hb (h.unused_block hb hfree).1 hfill
  · exact h.freed_run hb hptr hin

/-- The slot of a pool of one slot, whose counter stays 0 while it is handed out, is freed. -/
theorem block_restored_after_free : ∃ pool s, mempoolInit default 368 0 = some pool ∧
    Steps (GuardedStep State.Sound) (State.initial pool) [.malloc 16 false none, .free 352] s ∧
    s.live = [] ∧ ∃ bs ls, s.Inv bs ls ∧ ∀ b ∈ bs, ∀ mem fl mem',
      fillblock mem b.base b.size (b.base != 0) = some (fl, mem') →
      b.cells = freshCells b.base b.size (b.base != 0) ∧
      (∀ q < cutOffNum, s.pool.blocks.freelists b.base q = fl q) ∧
      ∀ c ∈ b.cells, Agree mem' s.pool.slots c.pos := by
  have hrun : ((mempoolInit default 368 0).bind fun pool => [Event.malloc 16 false none,
      .free 352].foldlM (next State.Sound) (initial pool)).any (fun s => s.live = []) = true := by
    decide
  obtain ⟨s, hs, hlive⟩ := (Option.any_eq_true ..).mp hrun
  obtain ⟨pool, hinit, hs⟩ := Option.bind_eq_some_iff.mp hs
  replace hlive := of_decide_eq_true hlive
  have hsteps := (Steps.of_foldlM hs).mono fun _ _ _ h => guarded_step_of_next h
  obtain ⟨bs, ls, h, hrestored⟩ := frees_restore_blocks hinit hsteps
  refine ⟨pool, s, hinit, hsteps, hlive, bs, ls, h, fun b hb => (hrestored b hb).1 ?_⟩
  rw [hlive]
  exact forall_mem_nil _

/-- The block at 1000 is given back while its slot is in use, and the same memory is obtained again.
When both allocations at 1288 are freed, nothing in the block is in use, but its slot is linked to
itself in the freelist. -/
theorem freelist_loops_after_reuse : ∃ pool s, mempoolInit default 368 1 = some pool ∧
    Steps CallStep (State.initial pool) [.malloc 16 false none,
      .malloc 16 true (some ⟨1000, 304⟩), .malloc 16 true (some ⟨1000, 304⟩), .free 1288,
      .free 1288] s ∧
    (⟨1000, 304⟩ : Range) ∈ s.owned ∧ (∀ a ∈ s.live, ¬ Range.Contains ⟨1000, 304⟩ a.base) ∧
    s.pool.blocks.freelists 1000 0 = 1240 ∧ s.pool.slots.next 1240 = 1240 ∧
    (fillblock default 1000 304 true).map (fun r => r.2.next 1240) = some 0 := by
  have hrun : ((mempoolInit default 368 1).bind fun pool => [Event.malloc 16 false none,
      .malloc 16 true (some ⟨1000, 304⟩), .malloc 16 true (some ⟨1000, 304⟩), .free 1288,
      .free 1288].foldlM (next fun _ => True) (initial pool)).any
      (fun s => (⟨1000, 304⟩ : Range) ∈ s.owned ∧
        (∀ a ∈ s.live, ¬ Range.Contains ⟨1000, 304⟩ a.base) ∧
        s.pool.blocks.freelists 1000 0 = 1240 ∧ s.pool.slots.next 1240 = 1240) = true := by decide
  obtain ⟨s, hs, hlast⟩ := (Option.any_eq_true ..).mp hrun
  obtain ⟨pool, hinit, hs⟩ := Option.bind_eq_some_iff.mp hs
  obtain ⟨howned, hlive, hhead, hnext⟩ := of_decide_eq_true hlast
  exact ⟨pool, s, hinit, (Steps.of_foldlM hs).mono fun _ _ _ h => call_step_of_next h, howned,
    hlive, hhead, hnext, by decide⟩

end Reconverse.Mempool
