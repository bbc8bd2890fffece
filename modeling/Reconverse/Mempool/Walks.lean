import Reconverse.Mempool.Split

/-!
# The walks of `mempool_free`

`mempool_free` finds the free slots around the freed one by two walks along the global list, and
takes them out of their freelists in a third walk.
-/

namespace Reconverse.Mempool

open Function (update)
open Lib.DList List

variable {mem mem' : Slots} {fl fl' : Freelists} {blk start a b y : Int} {c : Cell}
  {cs os pre post cells : List Cell} {fuel size : Nat}

/-! ## The walks along the global list -/

theorem Holds.free_iff (h : Holds mem blk c) : mem.status c.pos = 1 ↔ c.free = true := by
  rw [h.status]
  cases c.free <;> simp

/-- One turn of the walk backwards, on a free slot. -/
theorem merge_back_free (hc : Holds mem blk c) (hfree : c.free = true) (first : Int) :
    mergeBack mem (fuel + 1) c.pos size first =
      if mem.gprev c.pos = 0 then some (size + c.size, c.pos)
      else mergeBack mem fuel (mem.gprev c.pos) (size + c.size) c.pos := by
  rw [mergeBack, if_pos (hc.free_iff.mpr hfree), hc.size]

/-- The walk backwards stops behind the last used slot before a free one. -/
theorem merge_back_spec (hlinked : Linked mem.gnext mem.gprev 0 ((pre ++ [c]).map Cell.pos) b)
    (hholds : ∀ d ∈ pre ++ [c], Holds mem blk d) (hne : ∀ d ∈ pre, d.pos ≠ 0)
    (hfree : c.free = true) (hfuel : pre.length < fuel) (size : Nat) (first : Int) :
    ∃ pre₁ pre₂, pre = pre₁ ++ pre₂ ∧ (∀ d ∈ pre₂, d.free = true) ∧
      (∀ d, pre₁.getLast? = some d → d.free = false) ∧
      mergeBack mem fuel c.pos size first =
        some (size + total (pre₂ ++ [c]), ((pre₂ ++ [c]).map Cell.pos).headD 0) := by
  induction pre using List.reverseRecOn generalizing c b fuel size first with
  | nil =>
    obtain ⟨fuel, rfl⟩ := exists_fuel hfuel
    refine ⟨[], [], rfl, nofun, nofun, ?_⟩
    rw [merge_back_free (hholds c (by simp)) hfree, if_pos hlinked.1]
    rfl
  | append_singleton pre d ih =>
    rw [length_append, length_singleton] at hfuel
    obtain ⟨fuel, rfl⟩ := exists_fuel hfuel
    rw [map_append] at hlinked
    obtain ⟨hd, hprev, -⟩ := linked_append.mp hlinked
    replace hprev : mem.gprev c.pos = d.pos := by
      rw [hprev, map_append, getLastD_append]
      rfl
    rw [merge_back_free (hholds c (by simp)) hfree, hprev, if_neg (hne d (by simp))]
    have hholds' : ∀ e ∈ pre ++ [d], Holds mem blk e := fun e he =>
      hholds e (mem_append_left _ he)
    cases hdfree : d.free with
    | true =>
      obtain ⟨pre₁, pre₂, rfl, hall, hlast, hback⟩ := ih hd hholds'
        (fun e he => hne e (mem_append_left _ he)) hdfree
        (show pre.length < fuel by omega) (size + c.size) c.pos
      refine ⟨pre₁, pre₂ ++ [d], append_assoc .., fun e he => ?_, hlast, ?_⟩
      · rcases mem_append.mp he with he | he
        · exact hall e he
        · rw [mem_singleton.mp he]
          exact hdfree
      · rw [hback, append_assoc, total_append, total_append, total_append]
        have hhead : ((pre₂ ++ [d]).map Cell.pos).headD 0 =
            ((pre₂ ++ ([d] ++ [c])).map Cell.pos).headD 0 := by
          cases pre₂ <;> rfl
        rw [total_cons, total_cons, total_nil]
        congr 2
        omega
    | false =>
      refine ⟨pre ++ [d], [], (append_nil _).symm, nofun, fun e he => ?_, ?_⟩
      · rw [getLast?_concat, Option.some.injEq] at he
        rw [← he]
        exact hdfree
      · obtain ⟨fuel, rfl⟩ := exists_fuel (Nat.lt_of_succ_lt_succ hfuel)
        rw [mergeBack, if_neg (mt (hholds' d (by simp)).free_iff.mp (by simp [hdfree]))]
        rfl

/-- One turn of the walk forwards, on a free slot. -/
theorem merge_forward_free (hc : Holds mem blk c) (hfree : c.free = true) :
    mergeForward mem (fuel + 1) c.pos size =
      if mem.gnext c.pos = 0 then some (size + c.size, 0)
      else mergeForward mem fuel (mem.gnext c.pos) (size + c.size) := by
  rw [mergeForward, if_pos (hc.free_iff.mpr hfree), hc.size]

/-- The walk forwards stops at the first used slot. -/
theorem merge_forward_spec (hlinked : Linked mem.gnext mem.gprev a ((c :: post).map Cell.pos) 0)
    (hholds : ∀ d ∈ c :: post, Holds mem blk d) (hne : ∀ d ∈ post, d.pos ≠ 0)
    (hfree : c.free = true) (hfuel : post.length < fuel) (size : Nat) :
    ∃ post₁ post₂, post = post₁ ++ post₂ ∧ (∀ d ∈ post₁, d.free = true) ∧
      (∀ d, post₂.head? = some d → d.free = false) ∧
      mergeForward mem fuel c.pos size =
        some (size + total (c :: post₁), (post₂.map Cell.pos).headD 0) := by
  induction post generalizing c a fuel size with
  | nil =>
    obtain ⟨fuel, rfl⟩ := exists_fuel hfuel
    refine ⟨[], [], rfl, nofun, nofun, ?_⟩
    rw [merge_forward_free (hholds c mem_cons_self) hfree,
      if_pos (show mem.gnext c.pos = 0 from hlinked.2.1)]
    rfl
  | cons d post ih =>
    rw [length_cons] at hfuel
    obtain ⟨fuel, rfl⟩ := exists_fuel hfuel
    obtain ⟨-, hnext, hd⟩ := hlinked
    replace hnext : mem.gnext c.pos = d.pos := hnext
    rw [merge_forward_free (hholds c mem_cons_self) hfree, hnext, if_neg (hne d mem_cons_self)]
    have hholds' : ∀ e ∈ d :: post, Holds mem blk e := fun e he =>
      hholds e (mem_cons_of_mem _ he)
    cases hdfree : d.free with
    | true =>
      obtain ⟨post₁, post₂, rfl, hall, hfirst, hforward⟩ := ih hd hholds'
        (fun e he => hne e (mem_cons_of_mem _ he)) hdfree
        (show post.length < fuel by omega) (size + c.size)
      refine ⟨d :: post₁, post₂, rfl, fun e he => ?_, hfirst, ?_⟩
      · rcases mem_cons.mp he with rfl | he
        · exact hdfree
        · exact hall e he
      · rw [hforward, total_cons, total_cons, total_cons, Nat.add_assoc]
    | false =>
      refine ⟨[], d :: post, rfl, nofun, fun e he => ?_, ?_⟩
      · rw [head?_cons, Option.some.injEq] at he
        rw [← he]
        exact hdfree
      · obtain ⟨fuel, rfl⟩ := exists_fuel (Nat.lt_of_succ_lt_succ hfuel)
        rw [mergeForward, if_neg (mt (hholds' d mem_cons_self).free_iff.mp (by simp [hdfree]))]
        rfl

/-! ## Taking the run out of the freelists -/

/-- The third walk takes every cell of the run but `toFree` out of its freelist. -/
theorem unlink_run_spec {toFree usedNext : Int} {run : List Cell}
    (hlinked : Linked mem.gnext mem.gprev a (run.map Cell.pos) usedNext)
    (hnot : usedNext ∉ run.map Cell.pos) (ha : Apart (run ++ os))
    (hlists : FreeLists mem fl (run ++ os))
    (hcells : ∀ d ∈ run, if d.pos = toFree then d.free = false
      else d.free = true ∧ mem.power d.pos = d.power ∧ d.power < cutOffNum)
    (hfuel : run.length < fuel) :
    ∃ fl' mem', unlinkRun toFree usedNext fuel ((run.map Cell.pos).headD usedNext) fl mem =
        some (fl', mem') ∧
      FreeLists mem' fl' os ∧ SameButLinks mem mem' ∧
      ∀ y, (∀ d ∈ run ++ os, d.free = true → y ≠ d.pos) →
        mem'.next y = mem.next y ∧ mem'.prev y = mem.prev y := by
  induction run generalizing mem fl fuel a with
  | nil =>
    obtain ⟨fuel, rfl⟩ := exists_fuel hfuel
    exact ⟨fl, mem, if_pos rfl, hlists, ⟨rfl, rfl, rfl, rfl, rfl, rfl⟩, fun y _ => ⟨rfl, rfl⟩⟩
  | cons d run ih =>
    obtain ⟨fuel, rfl⟩ := exists_fuel hfuel
    rw [map_cons, mem_cons, not_or] at hnot
    obtain ⟨-, hnext, hrun⟩ := hlinked
    have hd := hcells d mem_cons_self
    have hcells' : ∀ e ∈ run, if e.pos = toFree then e.free = false
        else e.free = true ∧ mem.power e.pos = e.power ∧ e.power < cutOffNum :=
      fun e he => hcells e (mem_cons_of_mem _ he)
    rw [map_cons, headD_cons, unlinkRun, if_neg (Ne.symm hnot.1)]
    by_cases htoFree : d.pos = toFree
    · rw [if_pos htoFree] at hd
      simp only [if_neg (not_not.mpr htoFree), hnext]
      obtain ⟨fl', mem', hdone, hout, hsame, hframe⟩ := ih hrun hnot.2 ha.tail
        ((FreeLists.used_cons hd).mp hlists) hcells' (Nat.lt_of_succ_lt_succ hfuel)
      exact ⟨fl', mem', hdone, hout, hsame, fun y hy =>
        hframe y fun e he => hy e (mem_cons_of_mem _ he)⟩
    · rw [if_neg htoFree] at hd
      obtain ⟨hfree, hpow, hlt⟩ := hd
      have hunlink := unlink_same fl mem d.pos
      rw [← hunlink.gnext] at hnext
      rw [if_pos htoFree]
      rw [← hunlink.gnext, ← hunlink.gprev] at hrun
      rw [← hunlink.power] at hcells'
      obtain ⟨fl', mem', hdone, hout, hsame, hframe⟩ := ih hrun hnot.2 ha.tail
        (hlists.unlink ha hfree hpow hlt) hcells' (Nat.lt_of_succ_lt_succ hfuel)
      rw [← hnext] at hdone
      refine ⟨fl', mem', hdone, hout, hunlink.trans hsame, fun y hy => ?_⟩
      -- The neighbours that are written are cells too.
      obtain ⟨hnextCell, hprevCell⟩ := hlists.neighbours mem_cons_self hfree hlt
      have hother := unlink_other (y := y) fl
        (fun hne => by
          rcases hprevCell with h0 | ⟨e, he, hfree', hpos⟩
          · exact absurd h0 hne
          · rw [← hpos]
            exact hy e he hfree')
        (fun hne => by
          rcases hnextCell with h0 | ⟨e, he, hfree', hpos⟩
          · exact absurd h0 hne
          · rw [← hpos]
            exact hy e he hfree')
      have hlater := hframe y fun e he => hy e (mem_cons_of_mem _ he)
      exact ⟨hlater.1.trans hother.1, hlater.2.trans hother.2⟩

end Reconverse.Mempool
