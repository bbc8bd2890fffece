import Reconverse.Ipc.Invariant
import Reconverse.Lib.Runs

/-!
# Every step keeps the invariant of the IPC pool

One lemma for each part of a call: what `CmiAllocIpcBlock`, `CmiMsgToIpcBlock`, `CmiPushIpcBlock`,
`CmiFreeIpcBlock`, `CmiPopIpcBlock` and `CmiDeliverIpcInbox` do between two points at which other
PEs can run.
-/

namespace Reconverse.Ipc

open Function (update update_of_ne update_self)
open Lib List State

variable {m : Machine} {s s' : State} {xs xs' : ListName → List Nat} {b : Loc} {l : ListName}
  {o o' : Holder} {pe q bin x d rank : Nat} {pc : Pc} {pending : Option Pending} {blocks : List Loc}
  {rest : List Loc} {l' : ListName} {y : Nat} {i : Nat}

/-! ## What the parts of the invariant depend on -/

/-- A block whose destination was not written is still in the right list. -/
theorem Home.congr (h : Home m s x l) (hcarved : ∀ q, ∀ c ∈ s.carved q, c ∈ s'.carved q)
    (hdest : s'.dest ⟨l.segment, x⟩ = s.dest ⟨l.segment, x⟩) : Home m s' x l := by
  cases l with
  | cache q pe bin =>
    obtain ⟨c, hc, hh⟩ := h
    exact ⟨c, hcarved q c hc, hh⟩
  | ret q pe bin =>
    obtain ⟨c, hc, hh⟩ := h
    exact ⟨c, hcarved q c hc, hh⟩
  | rq q rank => exact ⟨hdest.trans h.1, h.2⟩
  | nodeRq q => exact hdest.trans h

theorem InboxOk.congr (h : InboxOk m s pe b) (hdest : s'.dest b = s.dest b) :
    InboxOk m s' pe b := by
  rw [InboxOk, hdest]
  exact h

theorem filter_for_pe (hdest : ∀ b ∈ blocks, s'.dest b = s.dest b) :
    blocks.filter (fun b => s'.ForPe b) = blocks.filter fun b => s.ForPe b :=
  filter_congr fun b hb => decide_eq_decide.mpr (by rw [State.ForPe, State.ForPe, hdest b hb])

/-- The receive queue of a PE. -/
abbrev ownRq (m : Machine) (d : Nat) : ListName := .rq (m.cmiNodeOf d) (m.cmiRankOf d)

/-- The order of the messages for a PE, if nothing was done to them. -/
theorem Ordered.congr (h : Ordered m s xs d) (hinbox : s'.inbox d = s.inbox d)
    (hdest : ∀ b ∈ s.inbox d, s'.dest b = s.dest b) (hxs : xs' (ownRq m d) = xs (ownRq m d))
    (hpushed : s'.pushed d = s.pushed d) (harrived : s'.arrived d = s.arrived d)
    (hticket : ∀ b ∈ waiting m s xs d, s'.ticket b = s.ticket b) : Ordered m s' xs' d := by
  have hwaiting : waiting m s' xs' d = waiting m s xs d := by
    rw [waiting, waiting, hinbox, filter_for_pe hdest, hxs]
  rw [Ordered, hpushed, harrived, hwaiting, map_congr_left hticket]
  exact h

/-- More blocks are held. -/
theorem Keeps.mono {held held' : List Loc} (h : Keeps held pc) (hsub : ∀ b ∈ held, b ∈ held') :
    Keeps held' pc := by
  cases pc with
  | carve q bin pending => exact ⟨h.1, fun p hp src hsrc => hsub src (h.2 p hp src hsrc)⟩
  | release src => exact hsub src h
  | _ => trivial

/-- The other PEs keep what they have. -/
theorem keeps_update {held' : Holder → List Loc}
    (hother : ∀ i, i ≠ pe → Keeps (held' (.pe i)) (s.pc i)) (hpc : Keeps (held' (.pe pe)) pc)
    (i : Nat) : Keeps (held' (.pe i)) (update s.pc pe pc i) := by
  rcases eq_or_ne i pe with rfl | hi
  · rw [update_self]
    exact hpc
  · rw [update_of_ne hi]
    exact hother i hi

namespace Inv

/-- A PE goes on in its call. -/
theorem set_pc (h : Inv m s xs) (hpc : Keeps (s.held (.pe pe)) pc) : Inv m (s.setPc pe pc) xs where
  toShape := ⟨h.chains, h.placed⟩
  space := h.space
  fits := h.fits
  header q c hc := (h.header q c hc).congr rfl rfl rfl
  home l x hx := (h.home l x hx).congr (fun _ _ hc => hc) rfl
  inboxes := h.inboxes
  keeps := keeps_update (fun i _ => h.keeps i) hpc
  order := h.order
  times := h.times

/-- The destination of a block that somebody has is set. -/
theorem set_dest (h : Inv m s xs) (hb : b ∈ s.held o) (rank : Nat) :
    Inv m (s.setDest b rank) xs := by
  have hplace : b ∈ places s xs (.held o) := hb
  have hbox : ∀ i, ∀ b' ∈ s.inbox i, update s.dest b rank b' = s.dest b' := fun i b' hb' =>
    update_of_ne (fun heq =>
      h.placed.not_mem (j := .inbox i) hplace Place.noConfusion (heq ▸ hb')) ..
  refine ⟨⟨h.chains, h.placed⟩, h.space, h.fits, fun q c hc => ?_, fun l x hx => ?_,
    fun pe b' hb' => ?_, h.keeps, fun d => ?_, h.times⟩
  · exact (h.header q c hc).congr rfl rfl rfl
  · refine (h.home l x hx).congr (fun _ _ hc => hc) (update_of_ne ?_ ..)
    exact h.not_mem_list hplace Place.noConfusion x hx
  · exact (h.inboxes pe b' hb').congr (hbox pe b' hb')
  · exact (h.order d).congr rfl (hbox d) rfl rfl rfl fun _ _ => rfl

end Inv

/-! ## Allocating -/

/-- The destinations after `CmiMsgToIpcBlock` wrote the one of a new block. -/
def destAfter (dest : Loc → Nat) (b : Loc) : Option Pending → Loc → Nat
  | none => dest
  | some p => update dest b p.rank

/-- Where a PE goes on once its block is allocated. -/
def afterAlloc : Option Pending → Pc
  | some ⟨some src, _⟩ => .release src
  | _ => .idle

/-- The fields that an allocation writes. -/
theorem allocated_eq (s : State) (pe : Nat) (b : Loc) (pending : Option Pending) :
    s.allocated m pe b pending =
      { s with
        owner := update s.owner b pe
        segmentProc := update s.segmentProc b b.proc
        senderProc := update s.senderProc b (m.cmiNodeOf pe)
        held := update s.held (.pe pe) (b :: s.held (.pe pe))
        dest := destAfter s.dest b pending
        pc := update s.pc pe (afterAlloc pending) } := by
  rcases pending with _ | ⟨_ | src, rank⟩ <;> rfl

theorem dest_after_of_ne {dest : Loc → Nat} {b' : Loc} (h : b' ≠ b) :
    destAfter dest b pending b' = dest b' := by
  cases pending with
  | none => rfl
  | some p => exact update_of_ne h ..

/-- A block is allocated. It is in no list, and everything else keeps the invariant. -/
theorem allocated_inv (hshape : Shape (s.give b (.pe pe)) xs)
    (hspace : ∀ q, Packed (s.heap q) (s.carved q))
    (hfits : ∀ q, s.heap q ≤ s.max q ∧ s.max q < 2 ^ 63)
    (hheader : ∀ q, ∀ c ∈ s.carved q, (⟨q, c.offset⟩ : Loc) ≠ b → HeaderOk s ⟨q, c.offset⟩ c)
    (hnew : ∀ c ∈ s.carved b.proc, c.offset = b.offset →
      c.bin < kIpcRetBins ∧ s.size b = kCutOffPoints c.bin ∧ c.pe = pe)
    (hhome : ∀ l, ∀ x ∈ xs l, Home m s x l) (hinboxes : ∀ pe, ∀ b ∈ s.inbox pe, InboxOk m s pe b)
    (hkeeps : ∀ i, i ≠ pe → Keeps (s.held (.pe i)) (s.pc i))
    (hsrc : ∀ p ∈ pending, ∀ src ∈ p.src, src ∈ s.held (.pe pe))
    (horder : ∀ d, Ordered m s xs d) (htimes : ∀ d, Timed s d) :
    Inv m (s.allocated m pe b pending) xs := by
  rw [allocated_eq]
  have hplace : b ∈ places (s.give b (.pe pe)) xs (.held (.pe pe)) := by
    show b ∈ update s.held (.pe pe) (b :: s.held (.pe pe)) (.pe pe)
    rw [update_self]
    exact mem_cons_self
  have hbox : ∀ i, ∀ b' ∈ s.inbox i, destAfter s.dest b pending b' = s.dest b' := fun i b' hb' =>
    dest_after_of_ne fun heq =>
      hshape.placed.not_mem (j := .inbox i) hplace Place.noConfusion (heq ▸ hb')
  refine ⟨⟨hshape.chains, hshape.placed⟩, hspace, hfits, fun q c hc => ?_, fun l x hx => ?_,
    fun i b' hb' => ?_, keeps_update (fun i hi => ?_) ?_, fun d => ?_, htimes⟩
  · rcases eq_or_ne (⟨q, c.offset⟩ : Loc) b with rfl | hne
    · obtain ⟨hbin, hsize, hpe⟩ := hnew c hc rfl
      exact ⟨hbin, hsize, (update_self ..).trans hpe.symm, update_self ..⟩
    · exact (hheader q c hc hne).congr rfl (update_of_ne hne ..) (update_of_ne hne ..)
  · refine (hhome l x hx).congr (fun _ _ hc => hc) (dest_after_of_ne ?_)
    exact hshape.not_mem_list hplace Place.noConfusion x hx
  · exact (hinboxes i b' hb').congr (hbox i b' hb')
  · show Keeps (update s.held (.pe pe) _ (.pe i)) (s.pc i)
    rw [update_of_ne fun heq => hi (Holder.pe.inj heq)]
    exact hkeeps i hi
  · show Keeps (update s.held (.pe pe) _ (.pe pe)) (afterAlloc pending)
    rw [update_self]
    rcases pending with _ | ⟨_ | src, rank⟩
    · trivial
    · trivial
    · exact mem_cons_of_mem _ (hsrc _ rfl _ rfl)
  · exact (horder d).congr rfl (hbox d) rfl rfl rfl fun _ _ => rfl

theorem mem_carved_update {c new : Carving} {p : Nat} :
    c ∈ update s.carved q (new :: s.carved q) p ↔ (p = q ∧ c = new) ∨ c ∈ s.carved p := by
  rcases eq_or_ne p q with rfl | hp
  · simp
  · simp [hp]

namespace Inv

section

variable (h : Inv m s xs)

include h

/-- A block comes from the cache. -/
theorem pop_cache (hne : s.head (.cache q pe bin) ≠ listEnd)
    (hsrc : ∀ p ∈ pending, ∀ src ∈ p.src, src ∈ s.held (.pe pe)) :
    ∃ xs', Inv m (s.popCache m pe q bin pending) xs' := by
  have hshape := h.toShape.pop (o := .pe pe) hne
  obtain ⟨rest, hxs, -⟩ := (h.chains (.cache q pe bin)).exists_cons hne
  have hsub : ∀ l, ∀ x ∈ update xs (.cache q pe bin) (xs (.cache q pe bin)).tail l, x ∈ xs l := by
    intro l x hx
    rcases eq_or_ne l (.cache q pe bin) with rfl | hl
    · rw [update_self] at hx
      exact mem_of_mem_tail hx
    · rwa [update_of_ne hl] at hx
  refine ⟨_, allocated_inv hshape h.space h.fits (fun q c hc _ => ?_) (fun c hc hoff => ?_)
    (fun l x hx => (h.home l x (hsub l x hx)).congr (fun _ _ hc => hc) rfl) h.inboxes
    (fun i _ => h.keeps i) hsrc (fun d => ?_) h.times⟩
  · exact (h.header q c hc).congr rfl rfl rfl
  · -- The block in the cache was cut for this PE.
    obtain ⟨c', hc', hoff', hpe, -⟩ := h.home (.cache q pe bin) (s.head (.cache q pe bin)) (by
      rw [hxs]
      exact mem_cons_self)
    have hheader := h.header q c hc
    have hheader' := h.header q c' hc'
    rw [show c.offset = c'.offset from hoff.trans hoff'.symm] at hheader
    refine ⟨hheader.bin, ?_, ?_⟩
    · rw [← hheader.size, hoff']
      rfl
    · rw [← hheader.owner, hheader'.owner, hpe]
  · exact (h.order d).congr rfl (fun _ _ => rfl) (by simp) rfl rfl fun _ _ => rfl

/-- The blocks that came back become the cache. -/
theorem refill_cache (hempty : s.head (.cache q pe bin) = listEnd) :
    ∃ xs', Inv m ((s.setHead (.cache q pe bin) (s.head (.ret q pe bin))).setHead (.ret q pe bin)
      listEnd) xs' := by
  have hshape := h.toShape.exchange (.cache q pe bin) (.ret q pe bin) nofun rfl hempty
  refine ⟨_, ⟨hshape, h.space, h.fits, fun q c hc => ?_, fun l x hx => ?_, h.inboxes, h.keeps,
    fun d => ?_, h.times⟩⟩
  · exact (h.header q c hc).congr rfl rfl rfl
  · rcases eq_or_ne l (.ret q pe bin) with rfl | hret
    · rw [update_self] at hx
      cases hx
    · rw [update_of_ne hret] at hx
      rcases eq_or_ne l (.cache q pe bin) with rfl | hcache
      · rw [update_self] at hx
        exact h.home (.ret q pe bin) x hx
      · rw [update_of_ne hcache] at hx
        exact (h.home l x hx).congr (fun _ _ hc => hc) rfl
  · exact (h.order d).congr rfl (fun _ _ => rfl) (by simp) rfl rfl fun _ _ => rfl

/-- `CmiAllocIpcBlock` up to the heap. -/
theorem alloc (dstProc size : Nat) (hsrc : ∀ p ∈ pending, ∀ src ∈ p.src, src ∈ s.held (.pe pe)) :
    ∃ xs', Inv m (s.cmiAllocIpcBlock m pe dstProc size pending) xs' := by
  simp only [cmiAllocIpcBlock]
  split
  · exact ⟨xs, h⟩
  split
  · exact ⟨xs, h⟩
  next hbin =>
  split
  next hne => exact h.pop_cache hne hsrc
  next hne =>
  obtain ⟨xs', h'⟩ := h.refill_cache (not_not.mp hne)
  split
  next hne' => exact h'.pop_cache hne' hsrc
  next => exact ⟨xs', h'.set_pc ⟨Nat.lt_of_not_le hbin, hsrc⟩⟩

/-- A block is cut from the heap. -/
theorem carve (hbin : bin < kIpcRetBins)
    (hsrc : ∀ p ∈ pending, ∀ src ∈ p.src, src ∈ s.held (.pe pe)) :
    ∃ xs', Inv m (s.carve m pe q bin pending) xs' := by
  simp only [State.carve]
  split
  · exact ⟨xs, h.set_pc trivial⟩
  next hroom =>
  have hshape := h.toShape.carve (o := .pe pe) (h.heap_not_carved q) 0 bin pe
  refine ⟨xs, allocated_inv ⟨hshape.chains, hshape.placed⟩ (fun p => ?_) (fun p => ?_)
    (fun p c hc hne => ?_) (fun c hc hoff => ?_) (fun l x hx => ?_) h.inboxes (fun i _ => h.keeps i)
    hsrc (fun d => h.order d) h.times⟩
  · show Packed (update s.heap q _ p) (update s.carved q _ p)
    rcases eq_or_ne p q with rfl | hp
    · rw [update_self, update_self]
      exact ⟨rfl, h.space p⟩
    · rw [update_of_ne hp, update_of_ne hp]
      exact h.space p
  · show update s.heap q _ p ≤ _ ∧ _
    rcases eq_or_ne p q with rfl | hp
    · rw [update_self]
      exact ⟨Nat.le_of_not_lt hroom, (h.fits p).2⟩
    · rw [update_of_ne hp]
      exact h.fits p
  · have hold : c ∈ s.carved p := (mem_carved_update.mp hc).resolve_left fun ⟨hp, hc⟩ =>
      hne (by rw [hp, hc])
    exact (h.header p c hold).congr (update_of_ne hne ..) rfl rfl
  · rcases mem_carved_update.mp hc with ⟨-, rfl⟩ | hc
    · exact ⟨hbin, update_self .., rfl⟩
    · exact absurd ⟨c, hc, hoff⟩ (h.heap_not_carved q)
  · exact (h.home l x hx).congr (fun p c hc => mem_carved_update.mpr (.inr hc)) rfl

/-- `CmiMsgToIpcBlock` up to the allocation. -/
theorem msg_to {src : Option Loc} {len node : Nat}
    (hcall : s.cmiMsgToIpcBlock m pe src len node rank = some s') : ∃ xs', Inv m s' xs' := by
  unfold cmiMsgToIpcBlock at hcall
  cases src with
  | none =>
    cases hcall
    refine h.alloc _ _ fun p hp src hsrc => ?_
    cases hp
    cases hsrc
  | some b =>
    simp only at hcall
    split at hcall
    · cases hcall
    next hheld =>
    have hb : b ∈ s.held (.pe pe) := not_not.mp hheld
    split at hcall
    · cases hcall
      exact ⟨xs, h.set_dest hb rank⟩
    · split at hcall
      · cases hcall
      · cases hcall
        refine h.alloc _ _ fun p hp src hsrc => ?_
        cases hp
        cases hsrc
        exact hb

end

end Inv

/-! ## Pushing -/

/-- The size of a bin belongs to the bin. -/
theorem which_bin_cut_off {bin : Nat} (h : bin < kIpcRetBins) :
    whichBin (kCutOffPoints bin) = bin := by
  revert bin
  decide

theorem mem_update_cons : y ∈ update xs l (x :: xs l) l' ↔ (l' = l ∧ y = x) ∨ y ∈ xs l' := by
  rcases eq_or_ne l' l with rfl | hl
  · simp
  · simp [hl]

/-- A push is later than those before it. -/
theorem Timed.push (h : Timed s d) (pe d₀ : Nat) :
    Timed { s with
      clock := s.clock + 1
      pushed := update s.pushed d₀ (s.pushed d₀ ++ [⟨pe, s.clock⟩]) } d := by
  rcases eq_or_ne d d₀ with rfl | hd
  · unfold Timed
    simp only [update_self, mem_append, mem_singleton]
    refine ⟨pairwise_append.mpr ⟨h.1, pairwise_singleton .., fun t ht t' ht' => ?_⟩, ?_⟩
    · rw [mem_singleton.mp ht']
      exact h.2 t ht
    · rintro t (ht | rfl)
      · exact Nat.lt_succ_of_lt (h.2 t ht)
      · exact Nat.lt_succ_self _
  · unfold Timed
    simp only [update_of_ne hd]
    exact ⟨h.1, fun t ht => Nat.lt_succ_of_lt (h.2 t ht)⟩

namespace Inv

section

variable (h : Inv m s xs)

include h

/-- The other PEs keep the blocks that they will free. -/
theorem keeps_drop (hi : i ≠ pe) : Keeps ((s.drop b (.pe pe)).held (.pe i)) (s.pc i) := by
  show Keeps (update s.held (.pe pe) _ (.pe i)) (s.pc i)
  rw [update_of_ne fun heq => hi (Holder.pe.inj heq)]
  exact h.keeps i

/-- `CmiFreeIpcBlock` pushes a block to the return list of the PE and the bin that it was cut
for. -/
theorem free_eq (hb : b ∈ s.held o) : ∃ c ∈ s.carved b.proc, c.offset = b.offset ∧
    (s.drop b o).cmiFreeIpcBlock b = (s.drop b o).pushList (.ret b.proc c.pe c.bin) b := by
  have hplace : b ∈ places s xs (.held o) := hb
  obtain ⟨c, hc, hoff, hheader⟩ := h.carving hplace
  refine ⟨c, hc, hoff, ?_⟩
  show (s.drop b o).pushList (.ret (s.segmentProc b) (s.owner b) (whichBin (s.size b))) b = _
  rw [hheader.segment, hheader.owner, hheader.size, which_bin_cut_off hheader.bin]

/-- A block that is freed is in front of the return list it was cut for. -/
theorem returned (hb : b ∈ s.held o) : ((s.drop b o).cmiFreeIpcBlock b).Returned b := by
  obtain ⟨c, hc, hoff, heq⟩ := h.free_eq hb
  rw [heq]
  exact ⟨c, hc, hoff, update_self ..⟩

/-- Freeing a block keeps the invariant. -/
theorem free (hb : b ∈ s.held (.pe pe)) :
    ∃ xs', Inv m (((s.drop b (.pe pe)).cmiFreeIpcBlock b).setPc pe .idle) xs' := by
  have hplace : b ∈ places s xs (.held (.pe pe)) := hb
  obtain ⟨c, hc, hoff, heq⟩ := h.free_eq hb
  have hshape := h.toShape.push (l := .ret b.proc c.pe c.bin) hb rfl (h.offset_ne_end hplace)
  rw [heq]
  refine ⟨_, ⟨⟨hshape.chains, hshape.placed⟩, h.space, h.fits, fun q c hc => ?_, fun l x hx => ?_,
    h.inboxes, keeps_update (fun i hi => h.keeps_drop hi) trivial, fun d => ?_, h.times⟩⟩
  · exact (h.header q c hc).congr rfl rfl rfl
  · rcases mem_update_cons.mp hx with ⟨rfl, rfl⟩ | hx
    · exact ⟨c, hc, hoff, rfl, rfl⟩
    · exact (h.home l x hx).congr (fun _ _ hc => hc) rfl
  · exact (h.order d).congr rfl (fun _ _ => rfl) (by simp) rfl rfl fun _ _ => rfl

/-- A block that somebody has does not wait in a queue. -/
theorem not_mem_waiting (hb : b ∈ places s xs (.held o)) (d : Nat) : b ∉ waiting m s xs d := by
  intro hmem
  rcases mem_append.mp hmem with hmem | hmem
  · have hbox : b ∈ s.inbox d := mem_of_mem_filter (mem_reverse.mp hmem)
    have hplace : b ∈ places s xs (.inbox d) := hbox
    exact h.placed.not_mem hb Place.noConfusion hplace
  · have hplace : b ∈ places s xs (.list (ownRq m d)) :=
      mem_reverse.mp hmem
    exact h.placed.not_mem hb Place.noConfusion hplace

/-- A push is the last one that waits. -/
theorem ordered_push (hb : b ∈ places s xs (.held (.pe pe)))
    (hrank : s.dest b < m.nodeSize) (d : Nat) :
    Ordered m
      { (s.drop b (.pe pe)).pushList (.rq b.proc (s.dest b)) b with
        clock := s.clock + 1
        ticket := update s.ticket b ⟨pe, s.clock⟩
        pushed := update s.pushed (m.cmiNodeFirst b.proc + s.dest b)
          (s.pushed (m.cmiNodeFirst b.proc + s.dest b) ++ [⟨pe, s.clock⟩]) }
      (update xs (.rq b.proc (s.dest b)) (b.offset :: xs (.rq b.proc (s.dest b)))) d := by
  have hticket : ∀ b' ∈ waiting m s xs d, update s.ticket b ⟨pe, s.clock⟩ b' = s.ticket b' :=
    fun b' hb' =>
      update_of_ne (fun heq : b' = b => h.not_mem_waiting hb d (heq ▸ hb')) ..
  rcases eq_or_ne d (m.cmiNodeFirst b.proc + s.dest b) with rfl | hd
  · have hwait : waiting m s (update xs (.rq b.proc (s.dest b))
        (b.offset :: xs (.rq b.proc (s.dest b)))) (m.cmiNodeFirst b.proc + s.dest b) =
        waiting m s xs (m.cmiNodeFirst b.proc + s.dest b) ++ [b] := by
      simp [waiting, Machine.node_of_node_first_add hrank, Machine.rank_of_node_first_add hrank]
    show update s.pushed _ _ _ = s.arrived _ ++ (waiting m s _ _).map (update s.ticket b _)
    rw [hwait, map_append, map_congr_left hticket, h.order]
    simp
  · refine (h.order d).congr rfl (fun _ _ => rfl) (update_of_ne (fun heq => hd ?_) ..)
      (update_of_ne hd ..) rfl hticket
    obtain ⟨hnode, hrank⟩ := ListName.rq.inj heq
    rw [← hnode, ← hrank, Machine.node_first_add_rank]

/-- So does pushing one. -/
theorem push (hpc : s.pc pe = .idle) (hb : b ∈ s.held (.pe pe))
    (hrank : ValidRank m (s.dest b)) : ∃ xs', Inv m (s.cmiPushIpcBlock m pe b) xs' := by
  have hplace : b ∈ places s xs (.held (.pe pe)) := hb
  obtain ⟨c, hc, hoff, hheader⟩ := h.carving hplace
  have hkeeps : ∀ i, Keeps ((s.drop b (.pe pe)).held (.pe i)) (s.pc i) := fun i => by
    rcases eq_or_ne i pe with rfl | hi
    · rw [hpc]
      trivial
    · exact h.keeps_drop hi
  simp only [cmiPushIpcBlock, hheader.segment]
  split
  next hnode =>
    have hshape := h.toShape.push (l := .nodeRq b.proc) hb rfl (h.offset_ne_end hplace)
    refine ⟨_, ⟨hshape, h.space, h.fits, fun q c hc => ?_, fun l x hx => ?_, h.inboxes, hkeeps,
      fun d => ?_, h.times⟩⟩
    · exact (h.header q c hc).congr rfl rfl rfl
    · rcases mem_update_cons.mp hx with ⟨rfl, rfl⟩ | hx
      · exact hnode
      · exact (h.home l x hx).congr (fun _ _ hc => hc) rfl
    · exact (h.order d).congr rfl (fun _ _ => rfl) (by simp) rfl rfl fun _ _ => rfl
  next hnode =>
    have hlt : s.dest b < m.nodeSize := hrank.resolve_right hnode
    have hshape := h.toShape.push (l := .rq b.proc (s.dest b)) hb rfl (h.offset_ne_end hplace)
    refine ⟨_, ⟨⟨hshape.chains, hshape.placed⟩, h.space, h.fits, fun q c hc => ?_, fun l x hx => ?_,
      h.inboxes, hkeeps, fun d => ?_, fun d => ?_⟩⟩
    · exact (h.header q c hc).congr rfl rfl rfl
    · rcases mem_update_cons.mp hx with ⟨rfl, rfl⟩ | hx
      · exact ⟨rfl, hnode, hlt⟩
      · exact (h.home l x hx).congr (fun _ _ hc => hc) rfl
    · exact h.ordered_push hplace hlt d
    · exact (h.times d).push pe (m.cmiNodeFirst b.proc + s.dest b)

end

end Inv

/-! ## Receiving -/

/-- The receive queue of a PE determines the PE. -/
theorem rq_inj {i j : Nat} (h : ownRq m i = ownRq m j) : i = j := by
  obtain ⟨hnode, hrank⟩ := ListName.rq.inj h
  rw [← m.node_first_add_rank i, hnode, hrank, m.node_first_add_rank]

theorem mem_update_nil (h : y ∈ update xs l [] l') : y ∈ xs l' := by
  rcases eq_or_ne l' l with rfl | hl
  · rw [update_self] at h
    cases h
  · rwa [update_of_ne hl] at h

theorem mem_inbox_update (h : b ∈ update s.inbox pe blocks i) :
    (i = pe ∧ b ∈ blocks) ∨ (i ≠ pe ∧ b ∈ s.inbox i) := by
  rcases eq_or_ne i pe with rfl | hi
  · rw [update_self] at h
    exact .inl ⟨rfl, h⟩
  · rw [update_of_ne hi] at h
    exact .inr ⟨hi, h⟩

/-- The last block of an inbox waits longest. -/
theorem waiting_unbox (s' : State) (hbox : s.inbox d = rest ++ [b])
    (hrest : s'.inbox d = rest) (hdest : ∀ b' ∈ rest, s'.dest b' = s.dest b') :
    waiting m s xs d = (if s.ForPe b then [b] else []) ++ waiting m s' xs d := by
  rw [waiting, waiting, hbox, hrest, filter_for_pe hdest, filter_append, reverse_append]
  by_cases hfor : s.ForPe b
  · simp [hfor]
  · simp [hfor]

namespace Inv

section

variable (h : Inv m s xs)

include h

/-- A list is taken into the inbox of a PE. -/
theorem take_into (hl : l.segment = m.cmiNodeOf pe)
    (hdest : ∀ x ∈ xs l, s.dest ⟨l.segment, x⟩ = m.cmiRankOf pe ∨
      s.dest ⟨l.segment, x⟩ = nodeDatagram) (horder : ∀ d, Ordered m { s with
      inbox := update s.inbox pe (s.inbox pe ++ (xs l).map (Loc.mk l.segment)) }
      (update xs l []) d) :
    Inv m (s.takeInto pe l) (update xs l []) := by
  obtain ⟨hshape, heq⟩ := h.toShape.take pe l (h.length_le l)
  rw [heq] at hshape ⊢
  refine ⟨hshape, h.space, h.fits, fun q c hc => ?_, fun l' x hx => ?_, fun i b hb => ?_, h.keeps,
    fun d => horder d, h.times⟩
  · exact (h.header q c hc).congr rfl rfl rfl
  · exact (h.home l' x (mem_update_nil hx)).congr (fun _ _ hc => hc) rfl
  · rcases mem_inbox_update hb with ⟨rfl, hb⟩ | ⟨-, hb⟩
    · rcases mem_append.mp hb with hb | hb
      · exact h.inboxes i b hb
      · obtain ⟨x, hx, rfl⟩ := mem_map.mp hb
        exact ⟨hl, hdest x hx⟩
    · exact h.inboxes i b hb

/-- `refillInbox_` takes the receive queue of the PE. -/
theorem take_rq (hempty : s.inbox pe = []) : ∃ xs', Inv m (s.takeInto pe (ownRq m pe)) xs' := by
  have hhome : ∀ x ∈ xs (ownRq m pe), Home m s x _ := h.home _
  refine ⟨_, h.take_into rfl (fun x hx => .inl (hhome x hx).1) fun d => ?_⟩
  rcases eq_or_ne d pe with rfl | hd
  · -- What was in the queue is now in the inbox.
    have hall : ((xs (ownRq m d)).map (Loc.mk (m.cmiNodeOf d))).filter
        (fun b => s.ForPe b) = (xs (ownRq m d)).map
          (Loc.mk (m.cmiNodeOf d)) := by
      refine filter_eq_self.mpr fun b hb => ?_
      obtain ⟨x, hx, rfl⟩ := mem_map.mp hb
      refine decide_eq_true ?_
      rw [State.ForPe, (hhome x hx).1]
      exact (hhome x hx).2.1
    have horder := h.order d
    rw [Ordered, waiting, hempty] at horder
    show s.pushed d = s.arrived d ++ List.map s.ticket
      (((update s.inbox d _ d).filter fun b => s.ForPe b).reverse ++
        ((update xs _ [] (ownRq m d)).map _).reverse)
    rw [update_self, update_self, hempty]
    show s.pushed d = s.arrived d ++ List.map s.ticket
      ((((xs (ownRq m d)).map (Loc.mk (m.cmiNodeOf d))).filter fun b => s.ForPe b).reverse ++ [])
    rw [hall, append_nil, horder]
    rfl
  · exact (h.order d).congr (update_of_ne hd ..) (fun _ _ => rfl)
      (update_of_ne (fun heq => hd (rq_inj heq)) ..) rfl rfl fun _ _ => rfl

/-- `refillInbox_` takes the queue of the process. -/
theorem take_node (pe : Nat) : ∃ xs', Inv m (s.takeInto pe (.nodeRq (m.cmiNodeOf pe))) xs' := by
  have hhome : ∀ x ∈ xs (.nodeRq (m.cmiNodeOf pe)), Home m s x _ := h.home _
  refine ⟨_, h.take_into rfl (fun x hx => .inr (hhome x hx)) fun d => ?_⟩
  rcases eq_or_ne d pe with rfl | hd
  · have hnone : ((xs (.nodeRq (m.cmiNodeOf d))).map (Loc.mk (m.cmiNodeOf d))).filter
        (fun b => s.ForPe b) = [] := by
      refine filter_eq_nil_iff.mpr fun b hb => ?_
      obtain ⟨x, hx, rfl⟩ := mem_map.mp hb
      exact fun hfor => of_decide_eq_true hfor (hhome x hx)
    show s.pushed d = s.arrived d ++ List.map s.ticket
      (((update s.inbox d _ d).filter fun b => s.ForPe b).reverse ++
        ((update xs _ [] (ownRq m d)).map _).reverse)
    rw [update_self, filter_append]
    show s.pushed d = s.arrived d ++ List.map s.ticket
      (((s.inbox d).filter (fun b => s.ForPe b) ++ ((xs (.nodeRq (m.cmiNodeOf d))).map
        (Loc.mk (m.cmiNodeOf d))).filter fun b => s.ForPe b).reverse ++ _)
    rw [hnone, append_nil]
    exact h.order d
  · exact (h.order d).congr (update_of_ne hd ..) (fun _ _ => rfl) (by simp) rfl rfl
      fun _ _ => rfl

/-- The last block of an inbox goes to a holder. -/
theorem unbox (hbox : s.inbox pe = rest ++ [b])
    (dest' : Loc → Nat) (pc' : Nat → Pc) (hdest : ∀ b', b' ≠ b → dest' b' = s.dest b')
    (hother : ∀ i, i ≠ pe → pc' i = s.pc i) (hpc : ∀ held, Keeps held (pc' pe)) (o : Holder) :
    Inv m { s with
      inbox := update s.inbox pe rest
      held := update s.held o (b :: s.held o)
      dest := dest'
      pc := pc'
      arrived := if s.ForPe b then update s.arrived pe (s.arrived pe ++ [s.ticket b])
        else s.arrived } xs := by
  have hshape := h.toShape.unbox (o := o) hbox
  have hplace : b ∈ places ((s.setInbox pe rest).give b o) xs (.held o) := by
    show b ∈ update s.held o (b :: s.held o) o
    rw [update_self]
    exact mem_cons_self
  have hbox' : ∀ i, ∀ b' ∈ update s.inbox pe rest i, dest' b' = s.dest b' := fun i b' hb' =>
    hdest b' fun heq => hshape.placed.not_mem (j := Place.inbox i) hplace Place.noConfusion
      (heq ▸ hb')
  refine ⟨⟨hshape.chains, hshape.placed⟩, h.space, h.fits, fun q c hc => ?_, fun l x hx => ?_,
    fun i b' hb' => ?_, fun i => ?_, fun d => ?_, h.times⟩
  · exact (h.header q c hc).congr rfl rfl rfl
  · refine (h.home l x hx).congr (fun _ _ hc => hc) (hdest _ ?_)
    exact hshape.not_mem_list hplace Place.noConfusion x hx
  · have hold : InboxOk m s i b' := by
      rcases mem_inbox_update hb' with ⟨rfl, hb''⟩ | ⟨-, hb''⟩
      · exact h.inboxes i b' (by rw [hbox]; exact mem_append_left _ hb'')
      · exact h.inboxes i b' hb''
    exact hold.congr (hbox' i b' hb')
  · show Keeps (update s.held o (b :: s.held o) (.pe i)) (pc' i)
    rcases eq_or_ne i pe with rfl | hi
    · exact hpc _
    · rw [hother i hi]
      refine (h.keeps i).mono fun b' hb' => ?_
      rcases eq_or_ne (Holder.pe i) o with rfl | ho
      · rw [update_self]
        exact mem_cons_of_mem _ hb'
      · rwa [update_of_ne ho]
  · rcases eq_or_ne d pe with rfl | hd
    · have hold := h.order d
      rw [Ordered, waiting_unbox { s with inbox := update s.inbox d rest, dest := dest' } hbox
        (update_self ..) fun b' hb' => hbox' d b' (by rwa [update_self])] at hold
      show s.pushed d = (if s.ForPe b then update s.arrived d (s.arrived d ++ [s.ticket b])
        else s.arrived) d ++ (waiting m { s with inbox := update s.inbox d rest, dest := dest' }
          xs d).map s.ticket
      rw [hold]
      split
      · simp
      · rfl
    · refine (h.order d).congr (update_of_ne hd ..) (fun b' hb' => hbox' d b' ?_) rfl rfl ?_
        fun _ _ => rfl
      · rwa [update_of_ne hd]
      · split
        · exact update_of_ne hd ..
        · rfl

/-- The end of `CmiPopIpcBlock`. -/
theorem pop_inbox (pe : Nat) : Inv m (s.popInbox pe) xs := by
  unfold popInbox
  cases hlast : (s.inbox pe).getLast? with
  | none => exact h.set_pc trivial
  | some b =>
    have hbox : s.inbox pe = (s.inbox pe).dropLast ++ [b] :=
      (dropLast_append_getLast? b hlast).symm
    have hinv := h.unbox hbox s.dest (update s.pc pe .idle) (fun _ _ => rfl)
      (fun i hi => update_of_ne hi ..) (fun held => by rw [update_self]; trivial)
      (.pe pe)
    show Inv m (if s.dest b = nodeDatagram then _ else _) xs
    split
    next hnode =>
      have hfor : ¬ s.ForPe b := not_not.mpr hnode
      rw [if_neg hfor] at hinv
      exact hinv
    next hnode =>
      rw [if_pos (show s.ForPe b from hnode)] at hinv
      exact hinv

/-- One turn of the loop of `CmiDeliverIpcInbox`. -/
theorem deliver_one (hpc : s.pc pe = .deliver) : Inv m (s.deliverOne m pe) xs := by
  unfold deliverOne
  cases hlast : (s.inbox pe).getLast? with
  | none => exact h.set_pc trivial
  | some b =>
    have hbox : s.inbox pe = (s.inbox pe).dropLast ++ [b] :=
      (dropLast_append_getLast? b hlast).symm
    have hb : InboxOk m s pe b := h.inboxes pe b (mem_of_getLast? hlast)
    have hpc' : ∀ held, Keeps held (s.pc pe) := fun held => by
      rw [hpc]
      trivial
    show Inv m (if s.dest b = nodeDatagram then _ else _) xs
    split
    next hnode =>
      have hinv := h.unbox hbox (update s.dest b cmiMessageDestPENode) s.pc
        (fun b' hb' => update_of_ne hb' ..) (fun _ _ => rfl) hpc' (.node (m.cmiNodeOf pe))
      have hfor : ¬ s.ForPe b := not_not.mpr hnode
      rw [if_neg hfor] at hinv
      exact hinv
    next hnode =>
      -- The message is for this PE.
      have hpe : m.cmiNodeFirst (m.cmiNodeOf pe) + s.dest b = pe := by
        rw [hb.2.resolve_right hnode]
        exact m.node_first_add_rank pe
      have hinv := h.unbox hbox (update s.dest b pe) s.pc
        (fun b' hb' => update_of_ne hb' ..) (fun _ _ => rfl) hpc' (.pe pe)
      rw [if_pos (show s.ForPe b from hnode)] at hinv
      simp only [hpe]
      exact hinv

/-- `CmiPopIpcBlock` and `CmiDeliverIpcInbox` up to the first take. -/
theorem receive (pe : Nat) (deliver : Bool) : ∃ xs', Inv m (s.receive m pe deliver) xs' := by
  unfold State.receive
  split
  · exact ⟨xs, h⟩
  split
  next hempty =>
    obtain ⟨xs', h'⟩ := h.take_rq hempty
    exact ⟨xs', h'.set_pc trivial⟩
  next =>
    split
    · exact ⟨xs, h.set_pc trivial⟩
    · exact ⟨xs, h.pop_inbox pe⟩

/-- So does every further step of a call. -/
theorem resume (hstep : s.resume m pe = some s') : ∃ xs', Inv m s' xs' := by
  have hkeeps := h.keeps pe
  unfold State.resume at hstep
  cases hpc : s.pc pe with
  | idle =>
    rw [hpc] at hstep
    cases hstep
  | carve q bin pending =>
    rw [hpc] at hstep hkeeps
    cases hstep
    exact h.carve hkeeps.1 hkeeps.2
  | release src =>
    rw [hpc] at hstep hkeeps
    cases hstep
    exact h.free hkeeps
  | takeNode deliver =>
    rw [hpc] at hstep
    cases hstep
    obtain ⟨xs', h'⟩ := h.take_node pe
    refine ⟨xs', ?_⟩
    cases deliver with
    | true => exact h'.set_pc trivial
    | false => exact h'.pop_inbox pe
  | deliver =>
    rw [hpc] at hstep
    cases hstep
    exact ⟨xs, h.deliver_one hpc⟩

/-- So does handing a block over. -/
theorem hand (hb : b ∈ s.held o) (ho : o ≠ o') (hgive : s.CanGive m o) :
    Inv m ((s.drop b o).give b o') xs := by
  have hshape := h.toShape.hand hb ho
  refine ⟨hshape, h.space, h.fits, fun q c hc => ?_, fun l x hx => ?_, h.inboxes, fun i => ?_,
    fun d => h.order d, h.times⟩
  · exact (h.header q c hc).congr rfl rfl rfl
  · exact (h.home l x hx).congr (fun _ _ hc => hc) rfl
  · rcases eq_or_ne (Holder.pe i) o with rfl | hi
    · show Keeps _ (s.pc i)
      rw [hgive.2]
      trivial
    · refine (h.keeps i).mono fun b' hb' => ?_
      show b' ∈ update (update s.held o _) o' _ (.pe i)
      rcases eq_or_ne (Holder.pe i) o' with rfl | hi'
      · rw [update_self, show (s.drop b o).held (.pe i) = s.held (.pe i) from update_of_ne hi ..]
        exact mem_cons_of_mem _ hb'
      · rw [update_of_ne hi', update_of_ne hi]
        exact hb'

/-- Every step keeps the invariant. -/
theorem step {e : Event} (hstep : Step m s e s') : ∃ xs', Inv m s' xs' := by
  cases e with
  | alloc pe dstProc size =>
    obtain ⟨hidle, hstep⟩ := Option.ite_none_right_eq_some.mp hstep
    cases hstep
    exact h.alloc _ _ nofun
  | msgTo pe src len node rank =>
    obtain ⟨hidle, hstep⟩ := Option.ite_none_right_eq_some.mp hstep
    exact h.msg_to hstep
  | push pe b =>
    obtain ⟨⟨hidle, hb, hrank⟩, hstep⟩ := Option.ite_none_right_eq_some.mp hstep
    cases hstep
    exact h.push hidle.2 hb hrank
  | free pe b =>
    obtain ⟨⟨hidle, hb⟩, hstep⟩ := Option.ite_none_right_eq_some.mp hstep
    cases hstep
    have hpc : ((s.drop b (.pe pe)).cmiFreeIpcBlock b).setPc pe .idle =
        (s.drop b (.pe pe)).cmiFreeIpcBlock b := by
      rw [← hidle.2]
      exact congrArg (fun pc => { (s.drop b (.pe pe)).cmiFreeIpcBlock b with pc := pc })
        (Function.update_eq_self pe s.pc)
    exact hpc ▸ h.free hb
  | pop pe =>
    obtain ⟨hidle, hstep⟩ := Option.ite_none_right_eq_some.mp hstep
    cases hstep
    exact h.receive pe false
  | deliver pe =>
    obtain ⟨hidle, hstep⟩ := Option.ite_none_right_eq_some.mp hstep
    cases hstep
    exact h.receive pe true
  | resume pe => exact h.resume hstep
  | hand b holder taker =>
    obtain ⟨⟨hb, hne, -, hgive⟩, hstep⟩ := Option.ite_none_right_eq_some.mp hstep
    cases hstep
    exact ⟨xs, h.hand hb hne hgive⟩

end

end Inv

end Reconverse.Ipc
