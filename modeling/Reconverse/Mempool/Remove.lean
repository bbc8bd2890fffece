import Reconverse.Mempool.Calls

/-!
# Removing blocks

`removeblocks` walks along the blocks behind the first one and gives back those whose counter
`used` is 0, until the pool is below its limit. The invariant of the pool is kept whatever the
counters say.
-/

namespace Reconverse.Mempool

open Function (update update_of_ne update_self)
open Lib.DList List

variable {s : Pool} {b : BlockDesc} {kept rest : List BlockDesc} {ls : List Range} {fuel : Nat}
  {tail : Int}

/-- A block behind the first one is taken out. -/
theorem PoolInv.drop_block (h : PoolInv s (kept ++ b :: rest) ls) (hkept : kept ≠ []) :
    PoolInv (s.dropBlock s.blockTail ((kept.map (·.base)).getLastD 0) b.base)
    (kept ++ rest) ls := by
  have hb := h.ok b (by simp)
  have hnodup := h.bases_nodup
  have hchain := h.chain
  have htail := h.tail
  rw [bases_ranges, nodup_append] at hnodup
  replace hnodup := hnodup.1
  rw [map_append, map_cons] at hnodup hchain htail
  obtain ⟨hprev, hnext⟩ := hchain.mid
  have hkept' : kept.map (·.base) ≠ [] := fun h => hkept (map_eq_nil_iff.mp h)
  have hlast := getLastD_mem hkept' (0 : Int)
  obtain ⟨hkeptNodup, hrestNodup, hdisj⟩ := nodup_append.mp hnodup
  -- The first block, at offset 0, is kept.
  obtain ⟨first, kept', rfl, hzero⟩ : ∃ first kept', kept = first :: kept' ∧ first.base = 0 := by
    obtain ⟨first, tl, heq, hzero⟩ := h.first
    cases kept with
    | nil => exact absurd rfl hkept
    | cons d kept =>
      obtain ⟨rfl, -⟩ := List.cons.inj heq
      exact ⟨d, kept, rfl, hzero⟩
  have hrest : ∀ y ∈ rest.map (·.base), y ≠ 0 := fun y hy h0 =>
    hdisj first.base mem_cons_self y (mem_cons_of_mem _ hy) (hzero.trans h0.symm)
  refine ⟨⟨first, kept' ++ rest, rfl, hzero⟩, ?_, ?_, fun d hd => ?_, h.largeHead, h.largeChain,
    fun l hl => ?_, ?_, ?_⟩
  · rw [map_append]
    refine hchain.unlink (fun y hy => ?_) (fun y hy => ?_) (fun y hy => ?_) (fun y hy => ?_)
      (fun y hy => ?_) fun y hy => ?_
    · have hy' : y = ((first :: kept').map (·.base)).getLastD 0 := by
        rw [getLastD_eq_getLast?, hy, Option.getD_some]
      rw [hy']
      exact update_self ..
    · have hy' : s.blocks.blockNext b.base = y := by
        rw [hnext, headD_eq_head?_getD, hy, Option.getD_some]
      simp only [Pool.dropBlock, hy', if_pos (hrest y (mem_of_head? hy))]
      exact update_self ..
    · exact update_of_ne (ne_getLastD_of_mem_dropLast hkeptNodup hy 0) ..
    · exact update_of_ne (Ne.symm (hdisj _ hlast y (mem_cons_of_mem _ hy))) ..
    · simp only [Pool.dropBlock]
      split
      next hne =>
        refine update_of_ne ?_ ..
        rw [hnext] at hne ⊢
        rcases headD_mem_or (rest.map (·.base)) 0 with h0 | hmem
        · exact absurd h0 hne
        · exact hdisj y hy _ (mem_cons_of_mem _ hmem)
      next => rfl
    · simp only [Pool.dropBlock]
      split
      · refine update_of_ne ?_ ..
        rw [hnext]
        exact ne_headD_of_mem_tail (nodup_cons.mp hrestNodup).2 hy 0
      · rfl
  · show (if s.blockTail = b.base then s.blocks.blockPrev b.base else s.blockTail) = _
    rw [map_append, getLastD_append]
    rw [getLastD_append, getLastD_cons] at htail
    cases rest with
    | nil =>
      rw [if_pos (show s.blockTail = b.base from htail), hprev]
      rfl
    | cons d rest =>
      have hlast' := getLastD_mem (cons_ne_nil d.base (rest.map (·.base))) b.base
      rw [if_neg, htail]
      · exact getLastD_eq_of_ne_nil (cons_ne_nil _ _) ..
      · rw [htail]
        intro heq
        exact (nodup_cons.mp hrestNodup).1 (heq ▸ hlast')
  · have hold := h.ok d (perm_middle.mem_iff.mpr (mem_cons_of_mem _ hd))
    exact hold.frame (fun y _ _ => .refl _ y) rfl rfl
  · exact (h.largeOk l hl).frame (fun y _ _ => .refl _ y) rfl
  · exact (pairwise_cons.mp ((apart_perm (ranges_mid ..)).mp h.apart)).2
  · show s.size - s.blocks.size b.base = _
    rw [hb.size, h.size, ((ranges_mid (first :: kept') rest b ls).map Range.size).sum_nat,
      map_cons, sum_cons, Nat.add_sub_cancel_left]

/-- The blocks behind the first one are not at offset 0. -/
theorem PoolInv.behind_ne_zero (h : PoolInv s (b :: rest) ls) (hzero : b.base = 0) :
    ∀ d ∈ rest, d.base ≠ 0 := by
  intro d hd
  rw [← hzero]
  exact (show PoolInv s ([] ++ b :: rest) ls from h).base_ne (mem_append_left _ (mem_map_of_mem hd))

/-- A block behind another one is not the first. -/
theorem PoolInv.rest_ne_zero (h : PoolInv s (kept ++ b :: rest) ls) (hkept : kept ≠ []) :
    b.base ≠ 0 := by
  obtain ⟨first, tl, heq, hzero⟩ := h.first
  cases kept with
  | nil => exact absurd rfl hkept
  | cons d kept =>
    obtain ⟨rfl, -⟩ := List.cons.inj heq
    exact h.behind_ne_zero hzero b (by simp)

/-- The loop of `removeblocks`: the blocks `gone` are given back, all with counter 0, and the
others stay in order. If there is a block with counter 0 then at least one is given back. -/
theorem remove_loop_spec (h : PoolInv s (kept ++ rest) ls) (hkept : kept ≠ [])
    (htail : rest ≠ [] → tail = s.blockTail) (hfuel : rest.length < fuel) (freed : List Int) :
    ∃ s' kept' gone, removeLoop tail fuel ((kept.map (·.base)).getLastD 0)
        ((rest.map (·.base)).headD 0) freed s = some (s', freed ++ gone.map (·.base)) ∧
      PoolInv s' (kept ++ kept') ls ∧ rest.Perm (gone ++ kept') ∧
      (∀ d ∈ gone, s.blocks.used d.base = 0) ∧
      (gone = [] → ∀ d ∈ rest, s.blocks.used d.base ≠ 0) ∧ s'.slots = s.slots ∧
      s'.blocks.used = s.blocks.used ∧ s'.limit = s.limit := by
  induction rest generalizing s kept fuel freed with
  | nil =>
    obtain ⟨fuel, rfl⟩ := exists_fuel hfuel
    exact ⟨s, [], [], by simp [removeLoop], h, .nil, forall_mem_nil _, fun _ => forall_mem_nil _,
      rfl, rfl, rfl⟩
  | cons b rest ih =>
    obtain ⟨fuel, rfl⟩ := exists_fuel hfuel
    replace htail := htail (cons_ne_nil _ _)
    have hchain := h.chain
    rw [map_append] at hchain
    have hnext := hchain.mid.2
    have hrest : rest.length < fuel := Nat.lt_of_succ_lt_succ hfuel
    have hdrop := h.drop_block hkept
    generalize hprev : (kept.map (·.base)).getLastD 0 = prev at hdrop ⊢
    have hloop : removeLoop tail (fuel + 1) prev b.base freed s =
        if s.blocks.used b.base = 0 then
          if (s.dropBlock s.blockTail prev b.base).size < s.limit then
            some (s.dropBlock s.blockTail prev b.base, freed ++ [b.base])
          else removeLoop tail fuel prev ((rest.map (·.base)).headD 0) (freed ++ [b.base])
            (s.dropBlock s.blockTail prev b.base)
        else removeLoop tail fuel b.base ((rest.map (·.base)).headD 0) freed s := by
      rw [removeLoop, if_neg (h.rest_ne_zero hkept), htail, hnext]
      rfl
    rw [map_cons, headD_cons, hloop]
    split
    next hused =>
      split
      · exact ⟨_, rest, [b], rfl, hdrop, .refl _, fun d hd => by rwa [mem_singleton.mp hd],
          fun hnil => absurd hnil (cons_ne_nil _ _), rfl, rfl, rfl⟩
      · have htail' : rest ≠ [] → tail = (s.dropBlock s.blockTail prev b.base).blockTail := by
          intro hne
          have hne' : rest.map (·.base) ≠ [] := fun h => hne (map_eq_nil_iff.mp h)
          rw [hdrop.tail, htail, h.tail]
          simp only [map_append, map_cons, getLastD_append, getLastD_cons]
          exact getLastD_eq_of_ne_nil hne' ..
        obtain ⟨s', kept', gone, hdone, hinv, hperm, hzero, -, hslots, hcounters, hlimit⟩ :=
          ih hdrop hkept htail' hrest (freed ++ [b.base])
        refine ⟨s', kept', b :: gone, ?_, hinv, hperm.cons b, forall_mem_cons.mpr ⟨hused, hzero⟩,
          fun hnil => absurd hnil (cons_ne_nil _ _), hslots, hcounters, hlimit⟩
        rw [hprev] at hdone
        rw [hdone, append_assoc]
        rfl
    next hused =>
      rw [append_cons] at h
      obtain ⟨s', kept', gone, hdone, hinv, hperm, hzero, hnone, hsame⟩ :=
        ih h (by simp) (fun _ => htail) hrest freed
      refine ⟨s', b :: kept', gone, ?_, ?_, ?_, hzero,
        fun hnil => forall_mem_cons.mpr ⟨hused, hnone hnil⟩, hsame⟩
      · rw [map_append, getLastD_append] at hdone
        exact hdone
      · rw [append_cons]
        exact hinv
      · exact (hperm.cons b).trans perm_middle.symm

/-- Of the blocks of the pool, `gone` are given back if `removeblocks` is called. These are blocks
behind the first one with counter 0, and at least one of them if there are any. -/
structure Removes (s : Pool) (bs gone : List BlockDesc) (removed : Option (List Int)) : Prop where
  bases : removed.getD [] = gone.map (·.base)
  zero : ∀ d ∈ gone, d.base ≠ 0 ∧ s.blocks.used d.base = 0
  none_zero : removed = some [] → ∀ d ∈ bs, d.base ≠ 0 → s.blocks.used d.base ≠ 0

/-- `removeblocks` gives back blocks whose counter is 0. -/
theorem PoolInv.remove {bs : List BlockDesc} (h : PoolInv s bs ls) :
    ∃ s' kept gone, removeblocks s = some (s', gone.map (·.base)) ∧ PoolInv s' kept ls ∧
      bs.Perm (gone ++ kept) ∧ Removes s bs gone (some (gone.map (·.base))) ∧ s'.slots = s.slots ∧
      s'.blocks.used = s.blocks.used ∧ s'.limit = s.limit := by
  obtain ⟨first, rest, rfl, hzero⟩ := h.first
  have hfuel := h.fuel_blocks
  have hnext : s.blocks.blockNext first.base = (rest.map (·.base)).headD 0 := h.chain.2.1
  rw [hzero] at hnext
  obtain ⟨s', kept, gone, hloop, hinv, hperm, hused, hnone, hsame⟩ := remove_loop_spec
    (show PoolInv s ([first] ++ rest) ls from h) (cons_ne_nil _ _) (fun _ => rfl)
    (Nat.lt_of_succ_lt hfuel) []
  have hbehind := h.behind_ne_zero hzero
  refine ⟨s', first :: kept, gone, ?_, hinv, ?_,
    ⟨rfl, fun d hd => ⟨?_, hused d hd⟩, fun hnil d hd hd' => ?_⟩, hsame⟩
  · rw [removeblocks, hnext]
    have hprev : (([first].map fun b : BlockDesc => b.base).getLastD 0) = 0 := hzero
    rw [hprev] at hloop
    exact hloop
  · exact (hperm.cons first).trans perm_middle.symm
  · exact hbehind d (hperm.mem_iff.mpr (mem_append_left _ hd))
  · rcases mem_cons.mp hd with rfl | hd
    · exact absurd hzero hd'
    · exact hnone (map_eq_nil_iff.mp (Option.some.inj hnil)) d hd

end Reconverse.Mempool
