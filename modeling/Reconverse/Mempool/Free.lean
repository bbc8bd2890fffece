import Reconverse.Mempool.Walks

/-!
# Freeing a slot

The run of free slots around a freed one is cut anew into slots of decreasing powers. `Freed` says
what `mempool_free` does to the cells of a block.
-/

namespace Reconverse.Mempool

open Function (update update_of_ne update_self)
open Lib.DList List Cell

variable {mem mem' : Slots} {fl fl' : Freelists} {blk start y : Int} {c : Cell}
  {os pre post cells : List Cell} {fuel size : Nat} {r : Freelists × Slots × Int}
  {n power left : Nat} {run : List Cell} {current : Int} {loc : Int}

/-! ## Cutting the run anew -/

/-- What a push on a free list writes. -/
theorem push_slots (fl : Freelists) (mem : Slots) (loc blk : Int) (i : Nat) (g : Int) :
    (pushFree fl mem loc blk i g).2 =
      { mem.putFree loc blk i g with
        gnext := update mem.gnext loc (loc + cutOffPoints i)
        next := (pushFree fl mem loc blk i g).2.next
        prev := (pushFree fl mem loc blk i g).2.prev } := by
  simp only [pushFree]
  split <;> rfl

/-- The header of the pushed slot is that of a free cell. -/
theorem push_holds (fl : Freelists) (mem : Slots) (loc blk : Int) (i : Nat) (g : Int) :
    Holds (pushFree fl mem loc blk i g).2 blk ⟨loc, i, true⟩ := by
  rw [push_slots]
  exact ⟨update_self .., update_self .., update_self .., update_self ..⟩

/-- Other headers are as before. -/
theorem push_same (fl : Freelists) (mem : Slots) (blk : Int) (i : Nat) (g : Int)
    (hy : y ≠ loc) : SameAt mem (pushFree fl mem loc blk i g).2 y := by
  rw [push_slots]
  exact ⟨update_of_ne hy .., update_of_ne hy .., update_of_ne hy ..,
    update_of_ne hy .., update_of_ne hy .., update_of_ne hy ..⟩

/-- Only the new slot and the old head of its freelist are written. -/
theorem push_agree {i : Nat} (mem : Slots) (blk g : Int) (hy : y ≠ loc)
    (hhead : fl i ≠ 0 → y ≠ fl i) : Agree mem (pushFree fl mem loc blk i g).2 y := by
  have hsame := push_same fl mem blk i g hy
  refine ⟨hsame.blockPtr, hsame.size, hsame.power, hsame.status, hsame.gprev, hsame.gnext, ?_, ?_⟩
  · simp only [pushFree, Slots.putFree, Slots.setGnext, Slots.setNext, Slots.setPrev]
    split
    · exact update_of_ne hy ..
    next hne => exact (update_of_ne (hhead hne) ..).trans (update_of_ne hy ..)
  · rw [push_next, if_neg hy]

/-- The last loop of `mempool_free` writes the `next` links of the new slots only. -/
theorem recut_next {loc prev current : Int} {fl : Freelists} {mem : Slots}
    (hy : y ∉ (greedy n loc left).map Cell.pos) :
    (recut blk power n loc prev left current fl mem).2.1.next y = mem.next y := by
  induction n generalizing loc prev left current fl mem with
  | zero => rfl
  | succ i ih =>
    rw [greedy] at hy
    rw [recut]
    split at hy
    next hge =>
      rw [map_cons, mem_cons, not_or] at hy
      rw [if_pos hge]
      exact (ih hy.2).trans ((push_next loc blk _ y i).trans (if_neg hy.1))
    next hlt =>
      rw [if_neg hlt]
      exact ih hy

/-- What the last loop of `mempool_free` does: the cells `new` are cut from `loc` on, behind the
slot `prev`. -/
structure Recut (mem : Slots) (blk loc prev current : Int) (new os : List Cell)
    (r : Freelists × Slots × Int) : Prop where
  lists : FreeLists r.2.1 r.1 (new ++ os)
  last : r.2.2 = (new.map Cell.pos).getLastD current
  linked : Linked r.2.1.gnext r.2.1.gprev prev (new.map Cell.pos) (loc + total new)
  holds : ∀ c ∈ new, Holds r.2.1 blk c
  same : ∀ y, y ∉ new.map Cell.pos → SameAt mem r.2.1 y
  frame : ∀ y, (∀ d ∈ new ++ os, y ≠ d.pos) → Agree mem r.2.1 y

/-- The loop that cuts a run of free memory into slots again. -/
theorem recut_spec {loc prev : Int} (current : Int)
    (hlists : FreeLists mem fl os) (ha : Apart (greedy n loc left ++ os)) (hn : n ≤ power + 1)
    (hcut : n ≤ cutOffNum) (hprev : n = power + 1 → mem.gprev loc = prev) :
    Recut mem blk loc prev current (greedy n loc left) os
      (recut blk power n loc prev left current fl mem) := by
  induction n generalizing loc prev left current fl mem os with
  | zero =>
    exact ⟨hlists, rfl, trivial, nofun, fun y _ => ⟨rfl, rfl, rfl, rfl, rfl, rfl⟩,
      fun y _ => .refl mem y⟩
  | succ i ih =>
    rw [greedy] at ha ⊢
    rw [recut]
    split at ha
    next hge =>
      rw [if_pos hge, if_pos hge]
      have hg : (if i ≠ power then prev else mem.gprev loc) = prev := by
        split
        · rfl
        next heq => exact hprev (by omega)
      rw [hg]
      -- The new slot is one of the others for the slots that follow.
      have hperm : (⟨loc, i, true⟩ :: greedy i (loc + cutOffPoints i) (left - cutOffPoints i) ++
          os).Perm
          (greedy i (loc + cutOffPoints i) (left - cutOffPoints i) ++ ⟨loc, i, true⟩ :: os) :=
        perm_middle.symm
      have hpush := hlists.push blk prev (ha.perm hperm).right hcut
      have hlater := ih loc hpush (ha.perm hperm) (by omega) (by omega)
        (show i = power + 1 → _ = loc from fun hi => by omega)
      have htiled : Tiled loc (⟨loc, i, true⟩ ::
          greedy i (loc + cutOffPoints i) (left - cutOffPoints i)) := ⟨rfl, greedy_tiled ..⟩
      have hfirst := hlater.same loc (nodup_cons.mp htiled.nodup).1
      have hend : loc + total (⟨loc, i, true⟩ ::
          greedy i (loc + cutOffPoints i) (left - cutOffPoints i)) = loc + cutOffPoints i +
            total (greedy i (loc + cutOffPoints i) (left - cutOffPoints i)) := by
        rw [total_cons, Nat.cast_add, ← Int.add_assoc]
        rfl
      refine ⟨hlater.lists.perm hperm.symm, ?_, ⟨?_, ?_, ?_⟩, fun d hd => ?_, fun y hy => ?_,
        fun y hy => ?_⟩
      · rw [map_cons, getLastD_cons]
        exact hlater.last
      · rw [hfirst.gprev, push_slots]
        exact update_self ..
      · rw [hfirst.gnext, push_slots, hend]
        refine (update_self ..).trans ?_
        by_cases hnil : greedy i (loc + cutOffPoints i) (left - cutOffPoints i) = []
        · rw [hnil]
          exact (Int.add_zero _).symm
        · exact (htiled.2.head_eq hnil _).symm
      · rw [hend]
        exact hlater.linked
      · rcases mem_cons.mp hd with rfl | hd
        · exact (push_holds fl mem loc blk i prev).same hfirst
        · exact hlater.holds d hd
      · rw [map_cons, mem_cons, not_or] at hy
        exact (push_same fl mem blk i prev hy.1).trans (hlater.same y hy.2)
      · refine (push_agree mem blk prev (hy ⟨loc, i, true⟩ mem_cons_self) fun hne => ?_).trans
          (hlater.frame y fun d hd => hy d (hperm.mem_iff.mpr hd))
        obtain ⟨d, hd, -, -, hpos, -⟩ := hlists.head hcut hne
        rw [← hpos]
        exact hy d (mem_append_right _ hd)
    next hlt =>
      rw [if_neg hlt, if_neg hlt]
      exact ih current hlists ha (by omega) (by omega) (by omega)

/-- The cells into which a free run of `size` bytes is cut. -/
def freshRun (first : Int) (size : Nat) : List Cell := greedy (turns size) first size

/-- The last link that `mempool_free` sets: the slot behind the run, if there is one, gets the last
new slot before it. -/
def closeRun (mem : Slots) (usedNext current : Int) : Slots :=
  if usedNext ≠ 0 then mem.setGprev usedNext current else mem.setGnext current 0

/-- A run is filled by slots. -/
theorem fresh_run_spec (first : Int) (hlt : size < 2 ^ 30) (hdvd : 64 ∣ size) :
    Tiled first (freshRun first size) ∧ total (freshRun first size) = size ∧
      ∀ d ∈ freshRun first size, d.power < cutOffNum ∧ d.free = true := by
  obtain ⟨hle, hbound, -⟩ := turns_spec hlt
  refine ⟨greedy_tiled .., ?_, fun d hd => ?_⟩
  · rw [freshRun, total_greedy first hbound, Nat.div_mul_cancel hdvd]
  · exact ⟨lt_of_lt_of_le (mem_greedy hd).1 hle, (mem_greedy hd).2⟩

/-- The run is cut, and its slots are put into the free lists. -/
theorem cut_run_spec {first : Int} (blk usedNext : Int) (hlists : FreeLists mem fl os)
    (ha : Apart (freshRun first size ++ os)) (hpos : 64 ≤ size) (hlt : size < 2 ^ 30) :
    ∃ r, Recut mem blk first (mem.gprev first) first (freshRun first size) os r ∧
      cutRun mem blk fl first usedNext size = some (r.1, closeRun r.2.1 usedNext r.2.2) ∧
      ∀ y, y ∉ (freshRun first size).map Cell.pos → r.2.1.next y = mem.next y := by
  obtain ⟨hle, hbound, hpowers⟩ := turns_spec hlt
  obtain ⟨n, hn⟩ : ∃ n, turns size = n + 1 := by
    refine Nat.exists_eq_add_one_of_ne_zero fun h0 => ?_
    rw [h0, cut_off_zero] at hbound
    omega
  rw [freshRun, hn] at ha ⊢
  -- The value of `prev` is not read for the first slot.
  have hfirst : ∀ prev, recut blk n (n + 1) first prev size first fl mem =
      recut blk n (n + 1) first (mem.gprev first) size first fl mem := by
    intro prev
    rw [recut, recut, if_pos (hpowers n (by omega)), if_pos (hpowers n (by omega))]
    simp only [ne_eq, not_true_eq_false, if_false]
  rw [hn] at hle
  refine ⟨_, recut_spec first hlists ha (le_refl _) hle fun _ => rfl, ?_, fun y hy => recut_next hy⟩
  simp only [cutRun, hn, Nat.add_sub_cancel, hfirst 0]
  rw [if_neg (not_lt.mpr hle)]
  rfl

/-- The links of the global list after a run was cut anew. -/
theorem close_run_linked {run new : List Cell}
    (hold : Linked mem.gnext mem.gprev 0 ((pre ++ run ++ post).map Cell.pos) 0)
    (hrow : Row start (pre ++ new ++ post)) (hnew : new ≠ []) (hrun : run ≠ [])
    (hhead : (run.map Cell.pos).headD 0 = start + total pre)
    (hr : Recut mem blk (start + total pre)
    (mem.gprev (start + total pre)) current new (pre ++ post) r) :
    Linked (closeRun r.2.1 ((post.map Cell.pos).headD 0) r.2.2).gnext
      (closeRun r.2.1 ((post.map Cell.pos).headD 0) r.2.2).gprev 0
      ((pre ++ new ++ post).map Cell.pos) 0 := by
  have hnodup := hrow.apart.nodup
  have htiled := hrow.tiled
  have hnz := fun d (hd : d ∈ post) => hrow.ne_zero (mem_append_right (pre ++ new) hd)
  have hsame : ∀ d ∈ pre ++ post, SameAt mem r.2.1 d.pos := fun d hd =>
    hr.same d.pos (hrow.apart.not_mem_mid hd)
  have hnew' : new.map pos ≠ [] := fun h => hnew (map_eq_nil_iff.mp h)
  have hlast : r.2.2 ∈ new.map pos := by
    rw [hr.last]
    exact getLastD_mem hnew' current
  rw [map_append, map_append] at hold hnodup ⊢
  rw [nodup_append, nodup_append] at hnodup
  obtain ⟨⟨-, hnewNodup, hpreNew⟩, hpostNodup, hdisj⟩ := hnodup
  -- The run starts where the new slots start, behind the slots before it.
  have hprev : mem.gprev (start + total pre) = (pre.map pos).getLastD 0 := by
    rw [← hhead]
    cases run with
    | nil => exact absurd rfl hrun
    | cons d run =>
      rw [map_cons, append_assoc] at hold
      exact hold.mid.1
  have hheads : ∀ b, (new.map pos).headD b = (run.map pos).headD b := fun b => by
    rw [tiled_append, tiled_append] at htiled
    rw [htiled.1.2.head_eq hnew b, ← hhead]
    cases run with
    | nil => exact absurd rfl hrun
    | cons d run => rfl
  have hlinked := hr.linked
  rw [hprev] at hlinked
  cases post with
  | nil =>
    refine hold.replace (hlinked.set_last (fun y hy => ?_) (fun y hy => ?_) fun y _ => rfl)
      (hheads _) nofun (fun y hy => ?_) (fun y hy => ?_) nofun nofun
    · have hy' : y = r.2.2 := by rw [hr.last, getLastD_eq_getLast?, hy, Option.getD_some]
      rw [hy']
      exact update_self ..
    · refine update_of_ne ?_ ..
      rw [hr.last]
      exact ne_getLastD_of_mem_dropLast hnewNodup hy current
    · obtain ⟨d, hd, rfl⟩ := mem_map.mp hy
      exact (update_of_ne (hpreNew _ hy _ hlast) ..).trans
        (hsame d (mem_append_left _ hd)).gnext
    · obtain ⟨d, hd, rfl⟩ := mem_map.mp hy
      exact (hsame d (mem_append_left _ hd)).gprev
  | cons e post =>
    have hclose : closeRun r.2.1 (((e :: post).map pos).headD 0) r.2.2 =
        r.2.1.setGprev e.pos r.2.2 := if_pos (hnz e mem_cons_self)
    have hepos : e.pos = start + total pre + total new := by
      rw [tiled_append, total_append] at htiled
      rw [htiled.2.1, Nat.cast_add, Int.add_assoc]
    have hfront : ∀ y ∈ pre.map pos ++ new.map pos, y ≠ e.pos := fun y hy =>
      hdisj y hy e.pos mem_cons_self
    rw [hclose]
    rw [← hepos] at hlinked
    refine hold.replace (hlinked.congr (fun y _ => rfl) fun y hy => ?_) (hheads _) (fun y hy => ?_)
      (fun y hy => ?_) (fun y hy => ?_) (fun y hy => ?_) fun y hy => ?_
    · exact update_of_ne (hfront y (mem_append_right _ hy)) ..
    · rw [← Option.some.inj hy]
      refine (update_self ..).trans ?_
      rw [hr.last]
      exact getLastD_eq_of_ne_nil hnew' ..
    · obtain ⟨d, hd, rfl⟩ := mem_map.mp hy
      exact (hsame d (mem_append_left _ hd)).gnext
    · obtain ⟨d, hd, rfl⟩ := mem_map.mp hy
      exact (update_of_ne (hfront _ (mem_append_left _ hy)) ..).trans
        (hsame d (mem_append_left _ hd)).gprev
    · obtain ⟨d, hd, rfl⟩ := mem_map.mp hy
      exact (hsame d (mem_append_right _ hd)).gnext
    · have hne : y ≠ e.pos := ne_headD_of_mem_tail hpostNodup hy 0
      obtain ⟨d, hd, rfl⟩ := mem_map.mp (mem_of_mem_tail hy)
      exact (update_of_ne hne ..).trans (hsame d (mem_append_right _ hd)).gprev

theorem close_run_slots (mem : Slots) (usedNext current : Int) : closeRun mem usedNext current =
    { mem with
      gprev := (closeRun mem usedNext current).gprev
      gnext := (closeRun mem usedNext current).gnext } := by
  unfold closeRun
  split <;> rfl

/-- A run is cut anew: the invariant of the block after it. -/
theorem close_run_inv (hrow : Row start (pre ++ run ++ post)) (hlt : total run < 2 ^ 30)
    (hholds : ∀ d ∈ pre ++ post, Holds mem blk d)
    (hlinked : Linked mem.gnext mem.gprev 0 ((pre ++ run ++ post).map Cell.pos) 0) (hrun : run ≠ [])
    (hr : Recut mem blk (start + total pre) (mem.gprev (start + total pre)) current
      (freshRun (start + total pre) (total run)) (pre ++ post) r) :
    BlockInv (closeRun r.2.1 ((post.map Cell.pos).headD 0) r.2.2) r.1 blk start
      (pre ++ freshRun (start + total pre) (total run) ++ post) := by
  obtain ⟨hnewTiled, htotal, hnewCells⟩ := fresh_run_spec (start + total pre) hlt
    (dvd_total run)
  have hrow' := hrow.replace hnewTiled htotal fun d hd => (hnewCells d hd).1
  have hpos : 64 ≤ total run := by
    have := length_le_total run
    have := length_pos_iff.mpr hrun
    omega
  have hnew : freshRun (start + total pre) (total run) ≠ [] := fun h => by
    rw [h, total_nil] at htotal
    omega
  have hhead := hrow.tiled
  rw [tiled_append, tiled_append] at hhead
  refine ⟨hrow', fun d hd => ?_,
    close_run_linked hlinked hrow' hnew hrun (hhead.1.2.head_eq hrun 0) hr, ?_⟩
  · suffices hdone : Holds r.2.1 blk d by
      rw [close_run_slots]
      exact ⟨hdone.size, hdone.power, hdone.status, hdone.blockPtr⟩
    rcases Decidable.em (d ∈ freshRun (start + total pre) (total run)) with hin | hin
    · exact hr.holds d hin
    · have hout : d ∈ pre ++ post := by
        simp only [mem_append] at hd ⊢
        tauto
      exact (hholds d hout).same (hr.same d.pos (hrow'.apart.not_mem_mid hout))
  · rw [close_run_slots]
    have hperm : (freshRun (start + total pre) (total run) ++ (pre ++ post)).Perm
        (pre ++ freshRun (start + total pre) (total run) ++ post) := by
      rw [append_assoc]
      exact perm_append_comm_assoc ..
    exact FreeLists.perm hr.lists hperm

/-! ## `mempool_free` -/

/-- A cell once its slot is marked free. -/
def Cell.release (c : Cell) : Cell := { c with free := true }

/-- The headers once a slot is marked free. -/
theorem release_holds (h : BlockInv mem fl blk start (pre ++ c :: post)) {d : Cell}
    (hd : d ∈ pre ++ c.release :: post) : Holds (mem.setStatus c.pos 1) blk d := by
  have hc := h.holds c (by simp)
  rcases mem_cons.mp (perm_middle.mem_iff.mp hd) with rfl | hd
  · exact ⟨hc.size, hc.power, update_self .., hc.blockPtr⟩
  · exact (h.holds d (perm_middle.mem_iff.mpr (mem_cons_of_mem _ hd))).congr rfl rfl
      (update_of_ne (h.apart.ne_mid hd) ..) rfl

/-- The first two walks find the maximal run of free slots around the freed one. -/
theorem free_walks (h : BlockInv mem fl blk start (pre ++ c :: post))
    (hfuel : (pre ++ c :: post).length < fuel) :
    ∃ pre₁ pre₂ post₁ post₂, pre = pre₁ ++ pre₂ ∧ post = post₁ ++ post₂ ∧
      (∀ d ∈ pre₂ ++ post₁, d.free = true) ∧
      (∀ d, pre₁.getLast? = some d → d.free = false) ∧
      (∀ d, post₂.head? = some d → d.free = false) ∧
      mergeBack (mem.setStatus c.pos 1) fuel c.pos 0 c.pos =
        some (total pre₂ + c.size, ((pre₂ ++ c :: post₁).map Cell.pos).headD 0) ∧
      mergeForward (mem.setStatus c.pos 1) fuel c.pos (total pre₂) =
        some (total (pre₂ ++ c :: post₁), (post₂.map Cell.pos).headD 0) := by
  have hnz : ∀ d ∈ pre ++ post, d.pos ≠ 0 := fun d hd =>
    h.row.ne_zero (perm_middle.mem_iff.mpr (mem_cons_of_mem _ hd))
  rw [length_append, length_cons] at hfuel
  have hmap : (pre ++ c :: post).map pos = (pre ++ c.release :: post).map pos := by
    simp [release]
  have hlinked := h.linked
  rw [hmap] at hlinked
  have hfront := hlinked
  rw [append_cons, map_append, linked_append] at hfront
  rw [map_append, linked_append] at hlinked
  obtain ⟨pre₁, pre₂, rfl, hpre₂, hpre₁, hback⟩ := merge_back_spec
    (show Linked (mem.setStatus c.pos 1).gnext (mem.setStatus c.pos 1).gprev _ _ _ from hfront.1)
    (fun d hd => release_holds h (by rw [append_cons]; exact mem_append_left _ hd))
    (fun d hd => hnz d (mem_append_left _ hd)) rfl (show pre.length < fuel by omega) 0 c.pos
  obtain ⟨post₁, post₂, rfl, hpost₁, hpost₂, hforward⟩ := merge_forward_spec
    (show Linked (mem.setStatus c.pos 1).gnext (mem.setStatus c.pos 1).gprev _ _ _ from hlinked.2)
    (fun d hd => release_holds h (mem_append_right _ hd))
    (fun d hd => hnz d (mem_append_right _ hd)) rfl (show post.length < fuel by omega)
    (total pre₂)
  refine ⟨pre₁, pre₂, post₁, post₂, rfl, rfl, fun d hd => ?_, hpre₁, hpost₂, ?_, ?_⟩
  · rcases mem_append.mp hd with hd | hd
    · exact hpre₂ d hd
    · exact hpost₁ d hd
  · refine hback.trans ?_
    rw [total_append, total_cons, zero_add]
    cases pre₂ <;> rfl
  · refine hforward.trans ?_
    rw [total_append]
    rfl

/-- What `mempool_free` of the slot of `c` does to the cells of its block: the maximal run of free
cells around it is cut anew. -/
def Freed (pre : List Cell) (c : Cell) (post cells : List Cell) : Prop :=
  ∃ pre₁ pre₂ post₁ post₂, pre = pre₁ ++ pre₂ ∧ post = post₁ ++ post₂ ∧
    (∀ d ∈ pre₂ ++ post₁, d.free = true) ∧
    (∀ d, pre₁.getLast? = some d → d.free = false) ∧ (∀ d, post₂.head? = some d → d.free = false) ∧
    cells = pre₁ ++ freshRun (((pre₂ ++ c :: post₁).map Cell.pos).headD 0)
      (total (pre₂ ++ c :: post₁)) ++ post₂

/-- Freeing a slot does not change the size of the row. -/
theorem Freed.total_eq (h : Freed pre c post cells) (hlt : total (pre ++ c :: post) < 2 ^ 30) :
    total cells = total (pre ++ c :: post) := by
  obtain ⟨pre₁, pre₂, post₁, post₂, rfl, rfl, -, -, -, rfl⟩ := h
  simp only [total_append, total_cons] at hlt ⊢
  rw [(fresh_run_spec _ (by omega) _).2.1]
  · omega
  · have := dvd_total (pre₂ ++ c :: post₁)
    simpa only [total_append, total_cons] using this

/-- No other used cell changes. -/
theorem Freed.used (h : Freed pre c post cells) :
    cells.filter (fun d => !d.free) = (pre ++ post).filter fun d => !d.free := by
  obtain ⟨pre₁, pre₂, post₁, post₂, rfl, rfl, hfree, -, -, rfl⟩ := h
  have hrun : (freshRun (((pre₂ ++ c :: post₁).map pos).headD 0)
      (total (pre₂ ++ c :: post₁))).filter (fun d => !d.free) = [] :=
    filter_eq_nil_iff.mpr fun d hd => by simp [(mem_greedy hd).2]
  have haround : (pre₂ ++ post₁).filter (fun d => !d.free) = [] :=
    filter_eq_nil_iff.mpr fun d hd => by simp [hfree d hd]
  simp only [filter_append, hrun, append_nil] at haround ⊢
  obtain ⟨h₂, h₁⟩ := append_eq_nil_iff.mp haround
  rw [h₂, h₁, append_nil, nil_append]

/-- Only the two ends of a run are linked anew. -/
theorem close_run_agree {usedNext current : Int} (mem : Slots) (hnext : usedNext ≠ 0 → y ≠ usedNext)
    (hlast : y ≠ current) : Agree mem (closeRun mem usedNext current) y := by
  unfold closeRun
  split
  next hne => exact agree_set_gprev (hnext hne) _
  next => exact agree_set_gnext hlast _

theorem perm_mid (pre mid post : List Cell) : (pre ++ mid ++ post).Perm (mid ++ (pre ++ post)) := by
  rw [append_assoc]
  exact perm_append_comm_assoc ..

/-- The third walk on the run that was found. -/
theorem free_unlink (h : BlockInv mem fl blk start (pre ++ run ++ post))
    (hc : c ∈ run) (hused : c.free = false) (hfree : ∀ d ∈ run, d.pos ≠ c.pos → d.free = true)
    (hfuel : run.length < fuel) :
    ∃ fl' mem', unlinkRun c.pos ((post.map Cell.pos).headD 0) fuel (start + total pre) fl
        (mem.setStatus c.pos 1) = some (fl', mem') ∧
      FreeLists mem' fl' (pre ++ post) ∧ SameButLinks (mem.setStatus c.pos 1) mem' ∧
      ∀ y, (∀ d ∈ pre ++ run ++ post, d.free = true → y ≠ d.pos) →
        mem'.next y = mem.next y ∧ mem'.prev y = mem.prev y := by
  have hof : ∀ d ∈ run, d ∈ pre ++ run ++ post := fun d hd =>
    mem_append_left _ (mem_append_right _ hd)
  have hlinked := h.linked
  have hnodup := h.apart.nodup
  have htiled := h.row.tiled
  rw [map_append, map_append] at hlinked hnodup
  rw [tiled_append, tiled_append] at htiled
  rw [linked_append, linked_append] at hlinked
  have hnot : (post.map pos).headD 0 ∉ run.map pos := by
    rcases headD_mem_or (post.map pos) 0 with h0 | hmem
    · rw [h0]
      intro hin
      obtain ⟨d, hd, hpos⟩ := mem_map.mp hin
      exact h.row.ne_zero (hof d hd) hpos
    · exact fun hin => (nodup_append.mp hnodup).2.2 _ (mem_append_right _ hin) _ hmem rfl
  have hcells : ∀ d ∈ run, if d.pos = c.pos then d.free = false
      else d.free = true ∧ mem.power d.pos = d.power ∧ d.power < cutOffNum := by
    intro d hd
    split
    next heq =>
      rw [h.apart.eq_of_pos (hof d hd) (hof c hc) heq]
      exact hused
    next hne =>
      exact ⟨hfree d hd hne, (h.holds d (hof d hd)).power, h.row.powers d (hof d hd)⟩
  obtain ⟨fl', mem', hdone, hlists, hsame, hframe⟩ := unlink_run_spec
    (show Linked (mem.setStatus c.pos 1).gnext (mem.setStatus c.pos 1).gprev _ _ _ from hlinked.1.2)
    hnot (h.apart.perm (perm_mid pre run post)) (h.lists.perm (perm_mid pre run post)) hcells hfuel
  rw [htiled.1.2.head_eq (ne_nil_of_mem hc)] at hdone
  exact ⟨fl', mem', hdone, hlists, hsame, fun y hy => hframe y fun d hd =>
    hy d ((perm_mid pre run post).mem_iff.mpr hd)⟩

/-- `mempool_free` of the slot of a used cell. The `next` links that it writes are in free cells and
in the cell itself. -/
theorem free_slot_spec {s : Pool}
    (h : BlockInv s.slots (s.blocks.freelists blk) blk start (pre ++ c :: post))
    (hused : c.free = false) (hlt : total (pre ++ c :: post) < 2 ^ 30)
    (hfuel : (pre ++ c :: post).length < s.fuel) :
    ∃ fl' mem' cells, Freed pre c post cells ∧
      freeSlot s c.pos = some
        { s with
          slots := mem'
          blocks :=
            { s.blocks with
              used := update s.blocks.used blk (s.blocks.used blk - BitVec.ofNat 64 c.size)
              freelists := update s.blocks.freelists blk fl' } } ∧
      BlockInv mem' fl' blk start cells ∧ Frame start (total (pre ++ c :: post)) s.slots mem' ∧
      ∀ y, (∀ d ∈ pre ++ c :: post, d.free = true ∨ d = c → y < d.pos ∨ d.pos + d.size ≤ y) →
        mem'.next y = s.slots.next y := by
  obtain ⟨pre₁, pre₂, post₁, post₂, rfl, rfl, hfree, hpre₁, hpost₂, hback, hforward⟩ :=
    free_walks h hfuel
  have hc := h.holds c (by simp)
  have hmark := fun d (hd : d ∈ pre₁ ++ post₂) => release_holds h (by
    simp only [mem_append, mem_cons] at hd ⊢
    tauto)
  have hcells : pre₁ ++ pre₂ ++ c :: (post₁ ++ post₂) = pre₁ ++ (pre₂ ++ c :: post₁) ++ post₂ := by
    simp
  rw [hcells] at h hlt hfuel ⊢
  have hcrun : c ∈ pre₂ ++ c :: post₁ := by simp
  have hrun := ne_nil_of_mem hcrun
  have htiled := h.row.tiled
  rw [tiled_append, tiled_append] at htiled
  have hfirst := htiled.1.2.head_eq hrun 0
  simp only [total_append, length_append] at hlt hfuel
  obtain ⟨fl₁, mem₁, hunlink, hlists₁, hsame₁, hframe₁⟩ :=
    free_unlink h hcrun hused (fun d hd hne => by
    refine hfree d ?_
    simp only [mem_append, mem_cons] at hd ⊢
    rcases hd with hd | rfl | hd
    · exact .inl hd
    · exact absurd rfl hne
    · exact .inr hd) (show (pre₂ ++ c :: post₁).length < s.fuel by rw [length_append]; omega)
  have hsize : 64 ≤ total (pre₂ ++ c :: post₁) := by
    have := size_pos c
    rw [total_append, total_cons]
    omega
  have hsmall : total (pre₂ ++ c :: post₁) < 2 ^ 30 := by
    rw [total_append]
    omega
  obtain ⟨hnewTiled, hnewTotal, hnewCells⟩ := fresh_run_spec (start + total pre₁) hsmall
    (dvd_total _)
  have hrow' := h.row.replace hnewTiled hnewTotal fun d hd => (hnewCells d hd).1
  obtain ⟨r, hr, hcut, hnext⟩ := cut_run_spec blk ((post₂.map pos).headD 0) hlists₁
    (hrow'.apart.perm (perm_mid ..)) hsize hsmall
  refine ⟨r.1, closeRun r.2.1 ((post₂.map pos).headD 0) r.2.2, _,
    ⟨pre₁, pre₂, post₁, post₂, rfl, rfl, hfree, hpre₁, hpost₂, rfl⟩, ?_, ?_, ?_, fun y hy => ?_⟩
  · have hptr : (s.slots.setStatus c.pos 1).blockPtr c.pos = blk := hc.blockPtr
    have hcsize : (s.slots.setStatus c.pos 1).size c.pos = c.size := hc.size
    rw [hfirst] at hback
    simp only [freeSlot, hptr, hcsize, hback, hforward, hunlink, hcut, bind, Option.bind_some,
      Nat.add_sub_cancel]
    rfl
  · rw [hfirst]
    refine close_run_inv h.row hsmall (fun d hd => (hmark d hd).same (hsame₁.at d.pos)) ?_ hrun hr
    rw [hsame₁.gnext, hsame₁.gprev]
    exact h.linked
  · intro y hy
    have hold : ∀ d ∈ pre₁ ++ (pre₂ ++ c :: post₁) ++ post₂, y ≠ d.pos := fun d hd => by
      have := h.row.pos_inside hd
      omega
    have htotal : total (pre₁ ++ freshRun (start + total pre₁) (total (pre₂ ++ c :: post₁)) ++
        post₂) = total (pre₁ ++ (pre₂ ++ c :: post₁) ++ post₂) := by
      rw [total_append, total_append, hnewTotal, ← total_append, ← total_append]
    have hnew : ∀ d ∈ pre₁ ++ freshRun (start + total pre₁) (total (pre₂ ++ c :: post₁)) ++ post₂,
        y ≠ d.pos := fun d hd => by
      have := hrow'.pos_inside hd
      omega
    have hstatus : Agree s.slots (s.slots.setStatus c.pos 1) y :=
      ⟨rfl, rfl, rfl, update_of_ne (hold c (by simp)) .., rfl, rfl, rfl, rfl⟩
    refine ((hstatus.trans ((hsame₁.at y).agree (hframe₁ y fun d hd _ => hold d hd))).trans
      (hr.frame y fun d hd =>
      hnew d ((perm_mid ..).mem_iff.mpr hd))).trans (close_run_agree _ (fun hne => ?_) ?_)
    · rcases headD_mem_or (post₂.map pos) 0 with h0 | hin
      · exact absurd h0 hne
      · obtain ⟨d, hd, hpos⟩ := mem_map.mp hin
        rw [← hpos]
        exact hold d (mem_append_right _ hd)
    · have hne : (freshRun (start + total pre₁) (total (pre₂ ++ c :: post₁))).map pos ≠ [] := by
        intro hnil
        rw [map_eq_nil_iff.mp hnil, total_nil] at hnewTotal
        omega
      rw [hr.last]
      obtain ⟨d, hd, hpos⟩ := mem_map.mp (getLastD_mem hne (start + total pre₁))
      rw [← hpos]
      exact hnew d (mem_append_left _ (mem_append_right _ hd))
  · have hfresh : y ∉ (freshRun (start + total pre₁) (total (pre₂ ++ c :: post₁))).map pos := by
      -- The new slots are in the run, which has free cells and the cell itself only.
      intro hin
      obtain ⟨e, he, rfl⟩ := mem_map.mp hin
      have hbounds := hnewTiled.bounds he
      have hpos := size_pos e
      obtain ⟨d, hd, hge, hlt⟩ := htiled.1.2.exists_cell hbounds.1 (by omega)
      have hkind : d.free = true ∨ d = c := by
        simp only [mem_append, mem_cons] at hd
        rcases hd with hd | hd | hd
        · exact .inl (hfree d (mem_append_left _ hd))
        · exact .inr hd
        · exact .inl (hfree d (mem_append_right _ hd))
      have hout := hy d (mem_append_left _ (mem_append_right _ hd)) hkind
      omega
    have hunlinked := (hframe₁ y fun d hd hdfree => by
      have hout := hy d hd (.inl hdfree)
      have hpos := size_pos d
      omega).1
    rw [close_run_slots]
    exact (hnext y hfresh).trans hunlinked

end Reconverse.Mempool
