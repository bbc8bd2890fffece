import Reconverse.Lib.Stacks
import Reconverse.Mempool.Remote

/-!
# Blocks freed by other threads reach the pool once

Every live allocation is in one place: with the program, with a thread in `mempool_free_remote`, on
the stack, in the list that the owner walks, or with the owner's own free (`Spot`). The links of the
blocks on the stack and in that list are those that `mempool_free_remote` has stored, since the
calls of the pool leave the first words of live allocations alone.

This needs that `removeblocks` gives back no block with live allocations: a block on the stack is
live. Otherwise a new block may take the place of one on the stack, and its headers cut the stack.
-/

namespace Reconverse.Mempool

open Function (update update_of_ne update_self)
open Lib List Shared

variable {s s' : Shared} {bs bs' : List BlockDesc} {ls ls' : List Range} {mem mem' : Slots}
  {ptr head p : Int} {t : Nat} {owner : Owner} {state : State} {y : Int} {e : SharedEvent}
  {q : Pusher} (junk : Slots)

/-! ## Stores -/

/-- The invariant of the pool depends on the headers only. -/
theorem State.Inv.set_slots {s : State} (h : s.Inv bs ls)
    (hsame : ∀ b ∈ bs, ∀ c ∈ b.cells, SameAt s.pool.slots mem c.pos)
    (hlinks : ∀ b ∈ bs, ∀ c ∈ b.cells, c.free = true →
      mem.next c.pos = s.pool.slots.next c.pos ∧ mem.prev c.pos = s.pool.slots.prev c.pos)
    (hlarge : ∀ l ∈ ls, SameAt s.pool.slots mem (l.base + sizeofLargeBlockHeader)) :
    (s.setSlots mem).Inv bs ls := by
  refine ⟨⟨h.pool.first, h.pool.chain, h.pool.tail, fun b hb => ?_, h.pool.largeHead,
    h.pool.largeChain, fun l hl => ?_, h.pool.apart, h.pool.size⟩, h.owned, h.live, h.fits,
    h.counters⟩
  · exact (h.pool.ok b hb).congr (hsame b hb) (hlinks b hb) rfl rfl
  · have hold := h.pool.largeOk l hl
    exact ⟨(hlarge l hl).status.trans hold.status, (hlarge l hl).blockPtr.trans hold.blockPtr,
      hold.size, hold.fits⟩

/-- A field is not written if its bytes are apart from the word. -/
theorem overlaps_eq_false {k n : Nat} (h : y + k + n ≤ ptr ∨ ptr + 8 ≤ y + k) :
    overlaps ptr y k n = false := by
  rw [overlaps, decide_eq_false_iff_not]
  omega

/-- The store into a block changes none of the first 40 bytes of a header that is apart from it. -/
theorem store_link_same (h : y + 40 ≤ ptr ∨ ptr + 8 ≤ y) :
    SameAt mem (storeLink mem junk ptr head) y := by
  have hout (k n : Nat) (hkn : k + n ≤ 40) : overlaps ptr y k n = false :=
    overlaps_eq_false (by omega)
  refine ⟨?_, ?_, ?_, ?_, ?_, ?_⟩
  · show (if overlaps ptr y 0 8 then _ else _) = _
    rw [hout 0 8 (by omega)]
    rfl
  · show (if overlaps ptr y 8 8 then _ else _) = _
    rw [hout 8 8 (by omega)]
    rfl
  · show (if overlaps ptr y 16 4 then _ else _) = _
    rw [hout 16 4 (by omega)]
    rfl
  · show (if overlaps ptr y 20 4 then _ else _) = _
    rw [hout 20 4 (by omega)]
    rfl
  · show (if overlaps ptr y 24 8 then _ else _) = _
    rw [hout 24 8 (by omega)]
    rfl
  · show (if overlaps ptr y 32 8 then _ else _) = _
    rw [hout 32 8 (by omega)]
    rfl

/-- A link that is stored elsewhere leaves the link to the next slot. -/
theorem store_link_next (h : y + 56 ≤ ptr ∨ ptr + 8 ≤ y + 48) :
    (storeLink mem junk ptr head).next y = mem.next y := by
  have hne : y ≠ ptr - sizeofUsedHeader := by
    rw [sizeofUsedHeader]
    omega
  show (if y = ptr - sizeofUsedHeader then head else if overlaps ptr y 48 8 then _ else _) = _
  rw [if_neg hne, overlaps_eq_false (by omega)]
  rfl

/-- It leaves the link to the slot before. -/
theorem store_link_prev (h : y + 48 ≤ ptr ∨ ptr + 8 ≤ y + 40) :
    (storeLink mem junk ptr head).prev y = mem.prev y := by
  show (if overlaps ptr y 40 8 then _ else _) = _
  rw [overlaps_eq_false (by omega)]
  rfl

/-- `mempool_free_remote` writes into the memory of its block only. -/
theorem State.Inv.store_link {s : State} (h : s.Inv bs ls) {a : Range} (ha : a ∈ s.live)
    (junk : Slots)
    (head : Int) : (s.setSlots (storeLink s.pool.slots junk a.base head)).Inv bs ls := by
  refine h.set_slots (fun b hb c hc => ?_) (fun b hb c hc hfree => ?_) fun l hl => ?_
  · have hword := h.word_cell ha hb hc
    refine store_link_same junk ?_
    rw [sizeofUsedHeader] at hword
    omega
  · have hpos := size_pos c
    rcases h.word_cell ha hb hc with ⟨-, hused⟩ | hword
    · rw [hused] at hfree
      cases hfree
    · exact ⟨store_link_next junk (by omega), store_link_prev junk (by omega)⟩
  · have hword := h.word_large ha hl
    have hfits := (h.pool.largeOk l hl).fits
    refine store_link_same junk ?_
    rw [sizeofLargeBlockHeader, sizeofUsedHeader] at hword hfits
    rw [sizeofLargeBlockHeader]
    omega

/-- Less memory is written if there are fewer allocations. -/
theorem scribble_sub {s : State} {live : List Range} (hsub : ∀ a ∈ live, a ∈ s.live)
    (junk : Slots) : s.scribble (State.scribble { s with live := live } junk) =
      State.scribble { s with live := live } junk := by
  have hmono (y : Int) (k n : Nat) (ht : State.touches { s with live := live } y k n = true) :
      s.touches y k n = true := by
    rw [State.touches, any_eq_true] at ht ⊢
    obtain ⟨i, hi, hw⟩ := ht
    refine ⟨i, hi, ?_⟩
    rw [decide_eq_true_iff] at hw ⊢
    refine hw.imp_left ?_
    rintro ⟨a, ha, hin⟩
    exact ⟨a, hsub a ha, hin⟩
  have hboth {α : Type} (y : Int) (k n : Nat) (a b : α) :
      (if s.touches y k n then (if State.touches { s with live := live } y k n then a else b)
      else b) =
        if State.touches { s with live := live } y k n then a else b := by
    by_cases ht : State.touches { s with live := live } y k n = true
    · rw [if_pos (hmono y k n ht)]
    · rw [if_neg ht, ite_self]
  simp only [State.scribble, hboth]

/-- The program writes into its own allocations: the invariant holds, and the first words of the
others stay as they are. -/
theorem State.Inv.write_mine (h : s.state.Inv bs ls) (junk : Slots) :
    (s.state.setSlots (s.mine.scribble junk)).Inv bs ls ∧
      ∀ a ∈ s.state.live, a.base ∉ s.program →
        linkOf (s.mine.scribble junk) a.base = linkOf s.state.pool.slots a.base := by
  have hsub : ∀ a ∈ s.mine.live, a ∈ s.state.live := fun a ha => mem_of_mem_filter ha
  constructor
  · have hwrite := h.write (s.mine.scribble junk)
    have heq : s.state.scribble (s.mine.scribble junk) = s.mine.scribble junk :=
      scribble_sub hsub junk
    rw [heq] at hwrite
    exact hwrite
  · intro a ha hother
    have hno : s.mine.touches (a.base - sizeofUsedHeader) 48 8 = false := by
      refine touches_eq_false fun i hi hw => ?_
      rcases hw with ⟨a', ha', hin⟩ | hout
      · have hmine : a'.base ∈ s.program := of_decide_eq_true (mem_filter.mp ha').2
        have hapart := h.words_apart ha (hsub a' ha') fun heq => hother (heq ▸ hmine)
        rw [Range.Contains, sizeofUsedHeader] at hin
        omega
      · obtain ⟨r, hr, hlt, hle⟩ := h.word_inside ha
        refine hout r (h.owned.mem_iff.mpr hr) ?_
        rw [Range.Contains, sizeofUsedHeader]
        omega
    show (if s.mine.touches (a.base - sizeofUsedHeader) 48 8 then _ else _) = _
    rw [hno]
    rfl

/-! ## The invariant -/

/-- Where a live allocation is. -/
inductive Spot where
  | program
  | pusher (t : Nat)
  | stack
  | walk
  | call
  deriving DecidableEq

/-- The allocation that a call frees. -/
def Call.ptrs : Call → List Int
  | .malloc _ _ => []
  | .freeThread ptr => [ptr]

def Owner.ptrs : Owner → List Int
  | .idle => []
  | .peek c | .take c | .loop c _ | .free c _ _ | .rest c => c.ptrs

/-- The allocations in a place. -/
def Shared.spots (s : Shared) : Spot → List Int
  | .program => s.program
  | .pusher t => ((s.pusher t).map Pusher.ptr).toList
  | .stack => s.stack
  | .walk => s.walk
  | .call => s.owner.ptrs

/-- The blocks that `take_remote_frees` still has to free. -/
def Owner.Walks (mem : Slots) (walk : List Int) : Owner → Prop
  | .loop _ p => Chain 0 (linkOf mem) p walk
  | .free _ p next => Chain 0 (linkOf mem) p walk ∧ p ≠ 0 ∧ next = linkOf mem p
  | _ => walk = []

/-- The links in the blocks. -/
structure Shared.Linked (s : Shared) (mem : Slots) : Prop where
  stack : Chain 0 (linkOf mem) s.remoteFree s.stack
  walk : s.owner.Walks mem s.walk
  pushers : ∀ t ptr head, s.pusher t = some (.cas ptr head) → linkOf mem ptr = head ∧
    s.stored ptr = head
  stored : ∀ p, p ∈ s.walk ∨ p ∈ s.stack → linkOf mem p = s.stored p

/-- What holds in every state of a run. -/
structure Shared.Inv (s : Shared) : Prop where
  pool : ∃ bs ls, s.state.Inv bs ls
  placed : Placed (· ∈ s.state.live.map Range.base) s.spots
  links : s.Linked s.state.pool.slots
  once : s.pushed.Perm (s.freed ++ s.walk ++ s.stack)

/-- The walk of the owner, if no link on it was written. -/
theorem Owner.Walks.congr {walk : List Int} (h : owner.Walks mem walk)
    (hwalk : ∀ z ∈ walk, linkOf mem' z = linkOf mem z) : owner.Walks mem' walk := by
  cases owner with
  | loop c p => exact Chain.congr h hwalk
  | free c p next =>
    obtain ⟨hchain, hne, rfl⟩ := h
    obtain ⟨rest, rfl, -⟩ := hchain.exists_cons hne
    exact ⟨hchain.congr hwalk, hne, (hwalk p mem_cons_self).symm⟩
  | idle | peek c | take c | rest c => exact h

/-- The block of a thread in `mempool_free_remote`. -/
theorem Shared.mem_spots_pusher (h : s.pusher t = some q) : q.ptr ∈ s.spots (.pusher t) := by
  rw [spots, h]
  exact mem_singleton_self _

/-- Only the links of the blocks that wait matter. -/
theorem Shared.Linked.congr (h : s.Linked mem)
    (hsame : ∀ i, i ≠ .program → i ≠ .call → ∀ z ∈ s.spots i, linkOf mem' z = linkOf mem z) :
    s.Linked mem' := by
  have hwalk := hsame .walk nofun nofun
  have hstack := hsame .stack nofun nofun
  refine ⟨h.stack.congr hstack, h.walk.congr hwalk, fun t ptr head ht => ?_, fun p hp => ?_⟩
  · rw [hsame (.pusher t) nofun nofun ptr (mem_spots_pusher ht)]
    exact h.pushers t ptr head ht
  · have hlink : linkOf mem' p = linkOf mem p := hp.elim (hwalk p) (hstack p)
    rw [hlink]
    exact h.stored p hp

/-- A thread that is not before its compare-and-swap promises nothing about its block. -/
theorem Shared.Linked.set_pusher (h : s.Linked mem) {q : Option Pusher} (t : Nat)
    (hq : ∀ ptr head, q ≠ some (.cas ptr head)) (u : Nat) (ptr head : Int)
    (hu : update s.pusher t q u = some (.cas ptr head)) :
    linkOf mem ptr = head ∧ s.stored ptr = head := by
  rcases eq_or_ne u t with rfl | hne
  · rw [update_self] at hu
    exact absurd hu (hq ptr head)
  · rw [update_of_ne hne] at hu
    exact h.pushers u ptr head hu

namespace Shared.Inv

/-- An allocation in a place is live. -/
theorem live (h : s.Inv) {i : Spot} {z : Int} (hz : z ∈ s.spots i) :
    z ∈ s.state.live.map Range.base :=
  (h.placed.mem_iff z).mpr ⟨i, hz⟩

/-- What the place of the owner says about the blocks that it still has to free. -/
theorem walks (h : s.Inv) (howner : s.owner = owner) : owner.Walks s.state.pool.slots s.walk :=
  howner ▸ h.links.walk

/-! ## Steps -/

/-- Another thread begins to free a slot. -/
theorem freeRemote (h : s.Inv) (hstep : s.freeRemote t ptr = some s') : s'.Inv := by
  obtain ⟨⟨hidle, hmine⟩, hs'⟩ := Option.ite_none_right_eq_some.mp hstep
  cases hs'
  have hnone := Option.isNone_iff_eq_none.mp hidle
  refine ⟨h.pool, ?_, ⟨h.links.stack, h.links.walk, h.links.set_pusher t nofun, h.links.stored⟩,
    h.once⟩
  · refine h.placed.move [ptr] (i := .program) (j := .pusher t) nofun ?_ ?_ fun k hk hk' => ?_
    · exact perm_cons_erase hmine
    · show (((update s.pusher t (some (.store ptr s.remoteFree))) t).map Pusher.ptr).toList.Perm
        ([ptr] ++ ((s.pusher t).map Pusher.ptr).toList)
      rw [update_self, hnone]
      exact .refl _
    · cases k with
      | program => exact absurd rfl hk
      | pusher u =>
        show (((update s.pusher t _) u).map Pusher.ptr).toList = _
        rw [update_of_ne fun heq => hk' (congrArg _ heq)]
        rfl
      | stack | walk | call => rfl

/-- A thread that stays in `mempool_free_remote` of the same block. -/
theorem spots_pusher (s : Shared) (hq : s.pusher t = some q) (q' : Pusher)
    (hptr : q'.ptr = q.ptr) (k : Spot) :
    Shared.spots { s with pusher := update s.pusher t (some q') } k = s.spots k := by
  cases k with
  | pusher u =>
    show ((update s.pusher t (some q') u).map Pusher.ptr).toList =
      ((s.pusher u).map Pusher.ptr).toList
    rcases eq_or_ne u t with rfl | hne
    · rw [update_self, hq, Option.map_some, Option.map_some, hptr]
    · rw [update_of_ne hne]
  | program | stack | walk | call => rfl

section

variable (h : s.Inv) {c : Call}

include h

/-- It stores the head of the stack in the slot. -/
theorem storeHead {junk : Slots} (hstep : s.storeHead t junk = some s') : s'.Inv := by
  unfold Shared.storeHead at hstep
  split at hstep
  · rename_i ptr head ht
    cases hstep
    obtain ⟨bs, ls, hpool⟩ := h.pool
    have hspot : ptr ∈ s.spots (.pusher t) := mem_spots_pusher ht
    obtain ⟨a, ha, rfl⟩ := mem_map.mp (h.live hspot)
    -- The block is in no other place, so only its own link changes.
    have hother : ∀ i, i ≠ .pusher t → ∀ z ∈ s.spots i, z ≠ a.base ∧
        linkOf (storeLink s.state.pool.slots junk a.base head) z = linkOf s.state.pool.slots z := by
      intro i hi z hz
      have hne : z ≠ a.base := ne_of_mem_of_not_mem hz (h.placed.not_mem hspot hi)
      obtain ⟨a', ha', rfl⟩ := mem_map.mp (h.live hz)
      have hapart := hpool.words_apart ha ha' hne.symm
      refine ⟨hne, store_link_next junk ?_⟩
      rw [sizeofUsedHeader]
      omega
    have hstack := hother .stack (by simp)
    have hwalk := hother .walk (by simp)
    refine ⟨⟨bs, ls, hpool.store_link ha junk head⟩, ?_,
      ⟨?_, ?_, fun u ptr' head' hu => ?_, fun p hp => ?_⟩, h.once⟩
    · show Placed (· ∈ s.state.live.map Range.base)
        (spots { s with pusher := update s.pusher t (some (.cas a.base head)) })
      rw [funext (spots_pusher s ht (.cas a.base head) rfl)]
      exact h.placed
    · exact h.links.stack.congr fun z hz => (hstack z hz).2
    · exact h.links.walk.congr fun z hz => (hwalk z hz).2
    · change update s.pusher t (some (.cas a.base head)) u = _ at hu
      show linkOf (storeLink s.state.pool.slots junk a.base head) ptr' = head' ∧
        update s.stored a.base head ptr' = head'
      rcases eq_or_ne u t with rfl | hne
      · rw [update_self] at hu
        cases hu
        exact ⟨if_pos rfl, update_self ..⟩
      · rw [update_of_ne hne] at hu
        obtain ⟨hptr, hlink⟩ := hother (.pusher u) (fun heq => hne (Spot.pusher.inj heq)) ptr'
          (mem_spots_pusher hu)
        rw [hlink, update_of_ne hptr]
        exact h.links.pushers u ptr' head' hu
    · show linkOf (storeLink s.state.pool.slots junk a.base head) p = update s.stored a.base head p
      obtain ⟨hptr, hlink⟩ := hp.elim (hwalk p) (hstack p)
      rw [hlink, update_of_ne hptr]
      exact h.links.stored p hp
  · cases hstep

/-- The compare-and-swap pushes the block or fails. -/
theorem remoteFreeCas {spurious : Bool} (hstep : s.remoteFreeCas t spurious = some s') :
    s'.Inv := by
  unfold Shared.remoteFreeCas at hstep
  split at hstep
  · rename_i ptr head ht
    obtain ⟨bs, ls, hpool⟩ := h.pool
    obtain ⟨hlink, hstored⟩ := h.links.pushers t ptr head ht
    have hspot : ptr ∈ s.spots (.pusher t) := mem_spots_pusher ht
    split at hstep
    · rename_i hcas
      cases hstep
      obtain ⟨a, ha, rfl⟩ := mem_map.mp (h.live hspot)
      refine ⟨⟨bs, ls, hpool⟩, ?_, ⟨?_, h.links.walk, h.links.set_pusher t nofun, fun p hp => ?_⟩,
        ?_⟩
      · refine h.placed.move [a.base] (i := .pusher t) (j := .stack) nofun ?_ (.refl _)
          fun k hk hk' => ?_
        · show ((s.pusher t).map Pusher.ptr).toList.Perm
            ([a.base] ++ ((update s.pusher t none t).map Pusher.ptr).toList)
          rw [ht, update_self]
          exact .refl _
        · cases k with
          | stack => exact absurd rfl hk'
          | pusher u =>
            show ((update s.pusher t none u).map Pusher.ptr).toList = _
            rw [update_of_ne fun heq => hk (congrArg _ heq)]
            rfl
          | program | walk | call => rfl
      · refine ⟨rfl, hpool.live_ne_zero ha, ?_⟩
        rw [hlink, ← hcas.1]
        exact h.links.stack
      · rcases hp with hp | hp
        · exact h.links.stored p (.inl hp)
        · rcases mem_cons.mp hp with rfl | hp
          · exact hlink.trans hstored.symm
          · exact h.links.stored p (.inr hp)
      · exact (perm_append_singleton ..).trans ((h.once.cons _).trans perm_middle.symm)
    · cases hstep
      refine ⟨⟨bs, ls, hpool⟩, ?_,
        ⟨h.links.stack, h.links.walk, h.links.set_pusher t nofun, h.links.stored⟩, h.once⟩
      rw [funext (spots_pusher s ht (.store ptr s.remoteFree) rfl)]
      exact h.placed
  · cases hstep

/-- The owner goes on without changing what it frees. -/
theorem move_owner (hptrs : owner.ptrs = s.owner.ptrs)
    (hwalk : owner.Walks s.state.pool.slots s.walk) : Shared.Inv { s with owner := owner } := by
  refine ⟨h.pool, ?_, ⟨h.links.stack, hwalk, h.links.pushers, h.links.stored⟩, h.once⟩
  have hspots : spots { s with owner := owner } = s.spots := by
    funext k
    cases k with
    | call => exact hptrs
    | program | pusher t | stack | walk => rfl
  rw [hspots]
  exact h.placed

/-- The owner begins a call. -/
theorem startCall (hstep : s.startCall c = some s') : s'.Inv := by
  obtain ⟨hidle, hstep⟩ := Option.ite_none_right_eq_some.mp hstep
  have hwalk : s.walk = [] := h.walks hidle
  cases c with
  | malloc size expand =>
    cases hstep
    refine h.move_owner ?_ hwalk
    rw [hidle]
    rfl
  | freeThread ptr =>
    obtain ⟨hmine, hs'⟩ := Option.ite_none_right_eq_some.mp hstep
    cases hs'
    refine ⟨h.pool, ?_, ⟨h.links.stack, hwalk, h.links.pushers, h.links.stored⟩, h.once⟩
    refine h.placed.move [ptr] (i := .program) (j := .call) nofun (perm_cons_erase hmine) ?_
      fun k hk hk' => ?_
    · show [ptr].Perm ([ptr] ++ s.owner.ptrs)
      rw [hidle]
      exact .refl _
    · cases k with
      | program => exact absurd rfl hk
      | call => exact absurd rfl hk'
      | pusher u | stack | walk => rfl

/-- The owner takes the whole stack. -/
theorem take (howner : s.owner = .take c) :
    Shared.Inv { s with
      owner := .loop c s.remoteFree, remoteFree := 0, walk := s.walk ++ s.stack, stack := [] } := by
  have hwalk : s.walk = [] := h.walks howner
  refine ⟨h.pool, ?_, ⟨rfl, ?_, h.links.pushers, fun p hp => ?_⟩, ?_⟩
  · refine h.placed.move s.stack (i := .stack) (j := .walk) nofun ?_ perm_append_comm
      fun k hk hk' => ?_
    · show s.stack.Perm (s.stack ++ [])
      rw [append_nil]
    · cases k with
      | stack => exact absurd rfl hk
      | walk => exact absurd rfl hk'
      | call =>
        show c.ptrs = s.owner.ptrs
        rw [howner]
        rfl
      | program | pusher t => rfl
  · rw [hwalk]
    exact h.links.stack
  · rcases hp with hp | hp
    · exact h.links.stored p (mem_append.mp hp)
    · cases hp
  · rw [append_nil, ← append_assoc]
    exact h.once

variable {removed : Option (List Int)} {newblock : Option Range}

/-- An allocation is freed by the owner: the links of the others stay as they are. -/
theorem free {i : Spot} (hptr : ptr ∈ s.spots i)
    (hcall : s.state.call (.free ptr) = some (state, removed)) :
    (∃ bs ls, state.Inv bs ls) ∧
      (∀ z, z ∈ state.live.map Range.base ↔ z ∈ s.state.live.map Range.base ∧ z ≠ ptr) ∧
      ∀ j z, z ∈ s.spots j → z ≠ ptr → linkOf state.pool.slots z = linkOf s.state.pool.slots z := by
  obtain ⟨bs, ls, hpool⟩ := h.pool
  obtain ⟨state', bs', ls', hcall', hinv, hlive, hlinks⟩ := hpool.free_spec (h.live hptr)
  rw [hcall'] at hcall
  cases hcall
  exact ⟨⟨bs', ls', hinv⟩, hlive, fun j z hz => hlinks z (h.live hz)⟩

/-- `take_remote_frees` frees a block. -/
theorem freeNext {next : Int}
    (howner : s.owner = .free c p next) (hcall : s.state.call (.free p) = some (state, removed)) :
    Shared.Inv { s with
      state := state, owner := .loop c next, walk := s.walk.erase p, freed := s.freed ++ [p] } := by
  obtain ⟨hchain, hne, rfl⟩ := h.walks howner
  obtain ⟨rest, hwalk, hrest⟩ := hchain.exists_cons hne
  have hp : p ∈ s.spots .walk := by
    show p ∈ s.walk
    rw [hwalk]
    exact mem_cons_self
  have herase : s.walk.erase p = rest := by
    rw [hwalk, erase_cons_head]
  have hnodup : p ∉ rest := by
    have hall : s.walk.Nodup := h.placed.nodup .walk
    rw [hwalk] at hall
    exact (nodup_cons.mp hall).1
  obtain ⟨hpool, hlive, hlinks⟩ := h.free hp hcall
  have hother : ∀ i, i ≠ .walk → ∀ z ∈ s.spots i,
      linkOf state.pool.slots z = linkOf s.state.pool.slots z :=
    fun i hi z hz => hlinks i z hz (ne_of_mem_of_not_mem hz (h.placed.not_mem hp hi))
  have hrestlinks : ∀ z ∈ rest, linkOf state.pool.slots z = linkOf s.state.pool.slots z :=
    fun z hz => by
    refine hlinks .walk z ?_ (ne_of_mem_of_not_mem hz hnodup)
    show z ∈ s.walk
    rw [hwalk]
    exact mem_cons_of_mem _ hz
  rw [herase]
  refine ⟨hpool, ?_, ⟨?_, ?_, fun t ptr head ht => ?_, fun z hz => ?_⟩, ?_⟩
  · refine h.placed.remove (i := .walk) hlive ?_ fun k hk => ?_
    · show s.walk.Perm (p :: rest)
      rw [hwalk]
    · cases k with
      | walk => exact absurd rfl hk
      | call =>
        show c.ptrs = s.owner.ptrs
        rw [howner]
        rfl
      | program | pusher t | stack => rfl
  · exact h.links.stack.congr (hother .stack nofun)
  · exact hrest.congr hrestlinks
  · rw [hother (.pusher t) nofun ptr (mem_spots_pusher ht)]
    exact h.links.pushers t ptr head ht
  · rcases hz with hz | hz
    · rw [hrestlinks z hz]
      exact h.links.stored z (.inl (hwalk ▸ mem_cons_of_mem _ hz))
    · rw [hother .stack nofun z hz]
      exact h.links.stored z (.inr hz)
  · have hsame : s.freed ++ [p] ++ rest ++ s.stack = s.freed ++ s.walk ++ s.stack := by
      rw [hwalk, append_assoc s.freed, singleton_append]
    rw [hsame]
    exact h.once

/-- `mempool_free` in `mempool_free_thread`. -/
theorem freeOwn (howner : s.owner = .rest (.freeThread ptr))
    (hcall : s.state.call (.free ptr) = some (state, removed)) :
    Shared.Inv { s with state := state, owner := .idle } := by
  have hptrs : s.spots .call = [ptr] := by
    show s.owner.ptrs = [ptr]
    rw [howner]
    rfl
  have hp : ptr ∈ s.spots .call := hptrs ▸ mem_singleton_self ptr
  have hwalk : s.walk = [] := h.walks howner
  obtain ⟨hpool, hlive, hlinks⟩ := h.free hp hcall
  have hlinked := h.links.congr fun i _ hi z hz =>
    hlinks i z hz (ne_of_mem_of_not_mem hz (h.placed.not_mem hp hi))
  refine ⟨hpool, ?_, ⟨hlinked.stack, hwalk, hlinked.pushers, hlinked.stored⟩, h.once⟩
  refine h.placed.remove (i := .call) hlive ?_ fun k hk => ?_
  · show (s.spots .call).Perm [ptr]
    rw [hptrs]
  · cases k with
    | call => exact absurd rfl hk
    | program | pusher t | stack | walk => rfl

/-- The rest of `mempool_malloc`, from a sound state if it calls `removeblocks`. -/
theorem malloc {size : Nat} {expand : Bool} {o : Outcome}
    (howner : s.owner = .rest (.malloc size expand))
    (ho : mempoolMalloc s.state.pool size expand (newblock.map fun r => (r.base, r.size)) = some o)
    (hallowed : Allowed (s.state.owned.filter fun r => r.base ∉ o.removed.getD []) s.state.live
      (.malloc size expand newblock)) (hsound : o.removed ≠ none → s.state.Sound) :
    Shared.Inv { s with
      state := s.state.finish size o, owner := .idle, program := o.ptr.toList ++ s.program } := by
  obtain ⟨bs, ls, hpool⟩ := h.pool
  obtain ⟨bs', ls', hinv, hlive, hlinks⟩ := hpool.malloc_spec ho hallowed hsound
  have hwalk : s.walk = [] := h.walks howner
  have hlinked := h.links.congr fun i _ _ z hz => hlinks z (h.live hz)
  have hother : ∀ k, k ≠ .program → spots { s with
      state := s.state.finish size o, owner := .idle, program := o.ptr.toList ++ s.program } k =
      s.spots k := by
    intro k hk
    cases k with
    | program => exact absurd rfl hk
    | call =>
      show [] = s.owner.ptrs
      rw [howner]
      rfl
    | pusher t | stack | walk => rfl
  refine ⟨⟨bs', ls', hinv⟩, ?_, ⟨hlinked.stack, hwalk, hlinked.pushers, hlinked.stored⟩, h.once⟩
  have hbases : (s.state.finish size o).live.map Range.base =
      o.ptr.toList ++ s.state.live.map Range.base := by
    rw [hlive, map_append, map_map]
    exact congrArg (· ++ _) (map_id _)
  have hnodup := hinv.live_nodup
  rw [hbases] at hnodup ⊢
  cases hptr : o.ptr with
  | none =>
    rw [hptr] at hother
    have hspots : spots { s with
        state := s.state.finish size o, owner := .idle, program := s.program } = s.spots := by
      funext k
      by_cases hk : k = .program
      · rw [hk]
        rfl
      · exact hother k hk
    show Placed _ (spots { s with
      state := s.state.finish size o, owner := .idle, program := s.program })
    rw [hspots]
    exact h.placed
  | some new =>
    rw [hptr] at hnodup hother
    refine h.placed.insert ?_ (fun z => mem_cons) (.refl _) hother
    exact (nodup_cons.mp hnodup).1

/-- Every step of the owner keeps the invariant. -/
theorem ownerStep (hsound : s.SoundStep (.owner newblock))
    (hstep : s.ownerStep newblock = some s') : s'.Inv := by
  unfold Shared.ownerStep at hstep
  split at hstep
  · cases hstep
  · rename_i c howner
    cases hstep
    have hwalk : s.walk = [] := h.walks howner
    split <;> exact h.move_owner (howner ▸ rfl) hwalk
  · rename_i c howner
    cases hstep
    exact h.take howner
  · rename_i c p howner
    cases hstep
    have hchain : Chain 0 (linkOf s.state.pool.slots) p s.walk := h.walks howner
    split
    · rename_i hnull
      exact h.move_owner (howner ▸ rfl) (hchain.head_eq_nil_iff.mp hnull)
    · rename_i hnull
      exact h.move_owner (howner ▸ rfl) ⟨hchain, hnull, rfl⟩
  · rename_i c p next howner
    obtain ⟨⟨state, removed⟩, hcall, hs'⟩ := Option.bind_eq_some_iff.mp hstep
    cases hs'
    exact h.freeNext howner hcall
  · rename_i size expand howner
    obtain ⟨o, ho, hs'⟩ := Option.bind_eq_some_iff.mp hstep
    obtain ⟨hallowed, hs'⟩ := Option.ite_none_right_eq_some.mp hs'
    cases hs'
    exact h.malloc howner ho hallowed (hsound newblock size expand o rfl howner ho)
  · rename_i ptr howner
    obtain ⟨⟨state, removed⟩, hcall, hs'⟩ := Option.bind_eq_some_iff.mp hstep
    cases hs'
    exact h.freeOwn howner hcall

/-- The program writes into its allocations. -/
theorem write :
    Shared.Inv { s with state := s.state.setSlots (s.mine.scribble junk) } := by
  obtain ⟨bs, ls, hpool⟩ := h.pool
  obtain ⟨hinv, hlinks⟩ := hpool.write_mine junk
  refine ⟨⟨bs, ls, hinv⟩, h.placed, ?_, h.once⟩
  have hlinked : s.Linked (s.mine.scribble junk) := h.links.congr fun i hi _ z hz => by
    obtain ⟨a, ha, rfl⟩ := mem_map.mp (h.live hz)
    exact hlinks a ha fun hmine => hi (h.placed.unique i .program a.base hz hmine)
  exact ⟨hlinked.stack, hlinked.walk, hlinked.pushers, hlinked.stored⟩

/-- Every step keeps the invariant. -/
theorem step (hsound : s.SoundStep e) (hstep : s.step e = some s') : s'.Inv := by
  cases e with
  | push t ptr => exact h.freeRemote hstep
  | store t junk => exact h.storeHead hstep
  | cas t spurious => exact h.remoteFreeCas hstep
  | call c => exact h.startCall hstep
  | owner newblock => exact h.ownerStep hsound hstep
  | write junk =>
    cases hstep
    exact h.write junk

end

end Shared.Inv

/-! ## Runs -/

/-- In the beginning nothing was freed. -/
theorem Shared.initial_inv {old pool : Pool} {poolSize limit : Nat}
    (hinit : mempoolInit old poolSize limit = some pool) : (Shared.initial pool).Inv := by
  refine ⟨⟨_, _, State.initial_inv hinit⟩, ⟨fun i => ?_, fun i j x hi => ?_, fun x => ?_⟩,
    ⟨rfl, rfl, nofun, nofun⟩, .refl _⟩
  · cases i with
    | program | pusher t | stack | walk | call => exact nodup_nil
  · cases i with
    | program | pusher t | stack | walk | call => cases hi
  · refine ⟨nofun, fun ⟨i, hi⟩ => ?_⟩
    cases i with
    | program | pusher t | stack | walk | call => cases hi

/-- The step, computed, if it meets the condition. -/
def Shared.soundStep (s : Shared) (e : SharedEvent) : Option Shared :=
  match e, s.owner with
  | .owner newblock, .rest (.malloc size expand) =>
    if (mempoolMalloc s.state.pool size expand (newblock.map fun r => (r.base, r.size))).all
        fun o => decide (o.removed = none ∨ s.state.Sound) then s.step e
    else none
  | _, _ => s.step e

/-- The check that a run can be evaluated with. -/
theorem Shared.sound_step_spec (h : s.soundStep e = some s') :
    s.SoundStep e ∧ SharedStep s e s' := by
  unfold soundStep at h
  split at h
  · rename_i newblock size expand howner
    obtain ⟨hquiet, hstep⟩ := Option.ite_none_right_eq_some.mp h
    refine ⟨fun newblock' size' expand' o he howner' ho hremoved => ?_, hstep⟩
    cases he
    rw [howner] at howner'
    cases howner'
    rw [ho, Option.all_some, decide_eq_true_iff] at hquiet
    exact hquiet.resolve_left hremoved
  · rename_i hother
    exact ⟨fun newblock size expand o he howner => absurd howner (hother newblock size expand he),
      h⟩

/-- In every run in which `removeblocks` is called from sound states only, every block that was
pushed on the `remote_free` stack was passed to `mempool_free` by `take_remote_frees`, is in the
list that the owner walks, or is on the stack, and in one of these once. The links of the waiting
blocks are those that were stored when they were pushed, and the blocks are not freed yet, so the
walk follows no link that `mempool_free` has overwritten. Each call of `mempool_free` returns. -/
theorem remote_frees_reach_pool {old pool : Pool} {poolSize limit : Nat} {es : List SharedEvent}
    (hinit : mempoolInit old poolSize limit = some pool)
    (hrun : Steps (fun s e s' => s.SoundStep e ∧ SharedStep s e s') (Shared.initial pool) es s) :
    s.pushed.Perm (s.freed ++ s.walk ++ s.stack) ∧ (s.walk ++ s.stack).Nodup ∧
      Chain 0 (linkOf s.state.pool.slots) s.remoteFree s.stack ∧
      s.owner.Walks s.state.pool.slots s.walk ∧
      (∀ p, p ∈ s.walk ∨ p ∈ s.stack →
        p ∈ s.state.live.map Range.base ∧ linkOf s.state.pool.slots p = s.stored p) ∧
      ∀ c p next newblock, s.owner = .free c p next →
        next = s.stored p ∧ (s.ownerStep newblock).isSome := by
  have h : s.Inv :=
    hrun.invariant (fun _ _ _ h hstep => h.step hstep.1 hstep.2)
      (initial_inv hinit)
  refine ⟨h.once, ?_, h.links.stack, h.links.walk, fun p hp => ⟨?_, h.links.stored p hp⟩,
    fun c p next newblock howner => ?_⟩
  · refine nodup_append.mpr ⟨h.placed.nodup .walk, h.placed.nodup .stack, fun x hx y hy heq => ?_⟩
    subst heq
    cases h.placed.unique .walk .stack x hx hy
  · rcases hp with hp | hp
    · exact h.live (i := .walk) hp
    · exact h.live (i := .stack) hp
  · obtain ⟨hchain, hne, rfl⟩ := h.walks howner
    obtain ⟨rest, hwalk, -⟩ := hchain.exists_cons hne
    have hp : p ∈ s.walk := hwalk ▸ mem_cons_self
    obtain ⟨bs, ls, hpool⟩ := h.pool
    obtain ⟨state, -, -, hcall, -⟩ := hpool.free_spec (h.live (i := .walk) hp)
    refine ⟨h.links.stored p (.inl hp), ?_⟩
    rw [ownerStep, howner]
    simp only [hcall]
    rfl

/-- A run of a new pool whose end is checked by evaluation. -/
theorem Shared.exists_run {f : Shared → SharedEvent → Option Shared} {es : List SharedEvent}
    {P : Shared → Prop} [DecidablePred P] {size limit : Nat}
    (h : ((mempoolInit default size limit).bind fun pool => es.foldlM f (Shared.initial pool)).any
      (fun s => P s) = true) :
    ∃ pool s, mempoolInit default size limit = some pool ∧
      Steps (fun s e s' => f s e = some s') (Shared.initial pool) es s ∧ P s := by
  obtain ⟨s, hs, hend⟩ := (Option.any_eq_true ..).mp h
  obtain ⟨pool, hinit, hs⟩ := Option.bind_eq_some_iff.mp hs
  exact ⟨pool, s, hinit, .of_foldlM hs, of_decide_eq_true hend⟩

/-- A block of another thread is pushed, taken from the stack and freed. -/
theorem remote_free_of_one_slot : ∃ pool s, mempoolInit default 368 0 = some pool ∧
    Steps (fun s e s' => s.SoundStep e ∧ SharedStep s e s') (Shared.initial pool)
      [.call (.malloc 16 false), .owner none, .owner none, .push 0 352, .store 0 default,
      .cas 0 true,
        .store 0 default, .cas 0 false, .call (.malloc 16 false), .owner none, .owner none,
        .owner none] s ∧
    s.owner = .free (.malloc 16 false) 352 0 ∧ s.pushed.Perm (s.freed ++ s.walk ++ s.stack) := by
  obtain ⟨pool, s, hinit, hrun, howner⟩ : ∃ pool s, mempoolInit default 368 0 = some pool ∧
      Steps (fun s e s' => s.soundStep e = some s') (initial pool)
        [.call (.malloc 16 false), .owner none, .owner none, .push 0 352, .store 0 default,
        .cas 0 true,
          .store 0 default, .cas 0 false, .call (.malloc 16 false), .owner none, .owner none,
          .owner none] s ∧ s.owner = .free (.malloc 16 false) 352 0 := exists_run (by decide)
  have hsteps := hrun.mono fun _ _ _ h => sound_step_spec h
  exact ⟨pool, s, hinit, hsteps, howner, (remote_frees_reach_pool hinit hsteps).1⟩

/-- A pool with limit 1. Two threads push the allocations at 352 and at 1288 while the owner is in
`mempool_malloc`, whose expansion gives the block at 1000 back: its counter is 0. The new block is
at the same place, and its headers overwrite the link from 1288 to 352. The next
`take_remote_frees` frees 1288 only, and 352 is lost. -/
theorem remote_free_lost : ∃ pool s, mempoolInit default 368 1 = some pool ∧
    Steps SharedStep (Shared.initial pool)
      [.call (.malloc 16 true), .owner none, .owner none,
        .call (.malloc 16 true), .owner none, .owner (some ⟨1000, 304⟩),
        .call (.malloc 16 true), .owner none,
        .push 0 352, .store 0 default, .cas 0 false, .push 1 1288, .store 1 default, .cas 1 false,
        .owner (some ⟨1000, 304⟩),
        .call (.malloc 16 false), .owner none, .owner none, .owner none, .owner none, .owner none,
        .owner none] s ∧
    s.pushed = [352, 1288] ∧ s.freed = [1288] ∧ s.remoteFree = 0 ∧ s.owner = .idle := by
  exact exists_run (by decide +kernel)

end Reconverse.Mempool
