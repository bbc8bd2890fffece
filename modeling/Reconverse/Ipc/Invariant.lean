import Reconverse.Ipc.Model

/-!
# The invariant of the IPC pool

`Shape s xs` says that the lists of the state hold the blocks `xs`, and that every block that was
cut from a segment is in exactly one place: a list, an inbox, or with a holder. `Inv` adds what the
headers of the blocks say, and how the pushes to a PE and their arrivals there are related.
-/

namespace Reconverse.Ipc

open Function (update update_of_ne update_self)
open Lib List

/-! ## Places -/

/-- Where a block can be. -/
inductive Place where
  | list (l : ListName)
  | inbox (pe : Nat)
  | held (o : Holder)
  deriving DecidableEq

/-- The blocks at a place, with `xs` in the lists. -/
def places (s : State) (xs : ListName → List Nat) : Place → List Loc
  | .list l => (xs l).map (Loc.mk l.segment)
  | .inbox pe => s.inbox pe
  | .held o => s.held o

/-- A block was cut from its segment. -/
def State.Carved (s : State) (b : Loc) : Prop := ∃ c ∈ s.carved b.proc, c.offset = b.offset

/-- A block is the first one of the return list of the PE and the bin that it was cut for. -/
def State.Returned (s : State) (b : Loc) : Prop :=
  ∃ c ∈ s.carved b.proc, c.offset = b.offset ∧ s.head (.ret b.proc c.pe c.bin) = b.offset

/-- The lists hold `xs`, and every block is in one place. -/
structure Shape (s : State) (xs : ListName → List Nat) : Prop where
  chains : ∀ l, Chain listEnd (fun x => s.next ⟨l.segment, x⟩) (s.head l) (xs l)
  placed : Placed s.Carved (places s xs)

variable {m : Machine} {s : State} {xs : ListName → List Nat} {b : Loc} {l l' : ListName}
  {o o' : Holder} {pe q bin x : Nat} {i : Place} {α : Type} {v : α}

theorem mem_places_list : b ∈ places s xs (.list l) ↔ b.proc = l.segment ∧ b.offset ∈ xs l := by
  cases b with
  | mk p y =>
    simp only [places, mem_map, Loc.mk.injEq]
    constructor
    · rintro ⟨z, hz, rfl, rfl⟩
      exact ⟨rfl, hz⟩
    · rintro ⟨rfl, hy⟩
      exact ⟨y, hy, rfl, rfl⟩

/-- The places other than two are the same. -/
theorem places_other {s' : State} {xs' : ListName → List Nat} {i j : Place}
    (hlist : ∀ l, .list l ≠ i → .list l ≠ j → xs' l = xs l)
    (hinbox : ∀ pe, .inbox pe ≠ i → .inbox pe ≠ j → s'.inbox pe = s.inbox pe)
    (hheld : ∀ o, .held o ≠ i → .held o ≠ j → s'.held o = s.held o) (k : Place) (hi : k ≠ i)
    (hj : k ≠ j) : places s' xs' k = places s xs k := by
  cases k with
  | list l => exact congrArg (map _) (hlist l hi hj)
  | inbox pe => exact hinbox pe hi hj
  | held o => exact hheld o hi hj

theorem update_list_ne {f : ListName → α} (h : Place.list l' ≠ .list l) : update f l v l' = f l' :=
  update_of_ne (fun heq => h (congrArg _ heq)) ..

theorem update_held_ne {f : Holder → α} (h : Place.held o' ≠ .held o) : update f o v o' = f o' :=
  update_of_ne (fun heq => h (congrArg _ heq)) ..

theorem update_inbox_ne {f : Nat → α} {pe' : Nat}
    (h : Place.inbox pe' ≠ .inbox pe) : update f pe v pe' = f pe' :=
  update_of_ne (fun heq => h (congrArg _ heq)) ..

namespace Shape

section

variable (h : Shape s xs)

include h

theorem not_mem_list (hb : b ∈ places s xs i) (hi : i ≠ .list l) :
    ∀ y ∈ xs l, (⟨l.segment, y⟩ : Loc) ≠ b := fun _ hy heq =>
  h.placed.not_mem hb hi.symm (heq ▸ mem_places_list.mpr ⟨rfl, hy⟩)

/-- The lists are the same if the link of a block changes that is in none of them. -/
theorem chain_of_not_mem (hb : ∀ l, ∀ y ∈ xs l, (⟨l.segment, y⟩ : Loc) ≠ b)
    (l : ListName) (v : Nat) :
    Chain listEnd (fun y => update s.next b v ⟨l.segment, y⟩) (s.head l) (xs l) :=
  (h.chains l).congr fun y hy => update_of_ne (hb l y hy) ..

/-- A block that a holder has is pushed onto a list of its segment. -/
theorem push (hb : b ∈ s.held o) (hl : l.segment = b.proc) (hend : b.offset ≠ listEnd) :
    Shape ((s.drop b o).pushList l b) (update xs l (b.offset :: xs l)) := by
  have hplace : b ∈ places s xs (.held o) := hb
  have hb' : (⟨l.segment, b.offset⟩ : Loc) = b := by rw [hl]
  have hchain := h.chain_of_not_mem (fun l' => h.not_mem_list hplace Place.noConfusion)
  refine ⟨fun l' => ?_, ?_⟩
  · show Chain listEnd (fun y => update s.next b (s.head l) ⟨l'.segment, y⟩)
      (update s.head l b.offset l') (update xs l (b.offset :: xs l) l')
    rcases eq_or_ne l' l with rfl | hne
    · rw [update_self, update_self]
      refine ⟨rfl, hend, ?_⟩
      show Chain listEnd _ (update s.next b (s.head l') ⟨l'.segment, b.offset⟩) _
      rw [hb', update_self]
      exact hchain l' (s.head l')
    · rw [update_of_ne hne, update_of_ne hne]
      exact hchain l' (s.head l)
  · refine h.placed.move [b] Place.noConfusion ?_ ?_ (places_other
      (fun l' _ hl' => update_list_ne hl') (fun _ _ _ => rfl) fun o' ho' _ => update_held_ne ho')
    · show (s.held o).Perm (b :: update s.held o ((s.held o).erase b) o)
      rw [update_self]
      exact perm_cons_erase hb
    · show ((update xs l (b.offset :: xs l) l).map (Loc.mk l.segment)).Perm _
      rw [update_self, map_cons, hb']
      exact .refl _

/-- The first block of a list is given to a holder. -/
theorem pop (hne : s.head l ≠ listEnd) :
    Shape ((s.setHead l (s.next ⟨l.segment, s.head l⟩)).give ⟨l.segment, s.head l⟩ o)
      (update xs l (xs l).tail) := by
  obtain ⟨rest, hxs, hrest⟩ := (h.chains l).exists_cons hne
  refine ⟨fun l' => ?_, ?_⟩
  · show Chain listEnd (fun y => s.next ⟨l'.segment, y⟩)
      (update s.head l (s.next ⟨l.segment, s.head l⟩) l') (update xs l (xs l).tail l')
    rcases eq_or_ne l' l with rfl | hne'
    · rw [update_self, update_self, hxs]
      exact hrest
    · rw [update_of_ne hne', update_of_ne hne']
      exact h.chains l'
  · refine h.placed.move [⟨l.segment, s.head l⟩] Place.noConfusion
      ?_ ?_ (places_other (fun l' hl' _ => update_list_ne hl') (fun _ _ _ => rfl) fun o' _ ho' =>
      update_held_ne ho')
    · show ((xs l).map (Loc.mk l.segment)).Perm
        (_ :: (update xs l (xs l).tail l).map (Loc.mk l.segment))
      rw [update_self, hxs]
      exact .refl _
    · show (update s.held o (_ :: s.held o) o).Perm (_ :: s.held o)
      rw [update_self]

/-- A list is moved to an empty one of the same segment. -/
theorem exchange (l l' : ListName) (hl : l ≠ l') (hseg : l.segment = l'.segment)
    (hempty : s.head l = listEnd) :
    Shape ((s.setHead l (s.head l')).setHead l' listEnd) (update (update xs l (xs l')) l' []) := by
  have hxs : xs l = [] := (h.chains l).head_eq_nil_iff.mp hempty
  refine ⟨fun k => ?_, ?_⟩
  · show Chain listEnd (fun y => s.next ⟨k.segment, y⟩)
      (update (update s.head l (s.head l')) l' listEnd k) (update (update xs l (xs l')) l' [] k)
    rcases eq_or_ne k l' with rfl | hk'
    · rw [update_self, update_self]
      rfl
    · rw [update_of_ne hk', update_of_ne hk']
      rcases eq_or_ne k l with rfl | hk
      · rw [update_self, update_self, hseg]
        exact h.chains l'
      · rw [update_of_ne hk, update_of_ne hk]
        exact h.chains k
  · have hne : Place.list l' ≠ .list l := fun heq => hl (Place.list.inj heq).symm
    refine h.placed.move ((xs l').map (Loc.mk l'.segment)) hne
      ?_ ?_ (places_other (fun k hk hk' => (update_list_ne hk).trans (update_list_ne hk'))
      (fun _ _ _ => rfl) fun _ _ _ => rfl)
    · show ((xs l').map _).Perm (_ ++ (update (update xs l (xs l')) l' [] l').map _)
      rw [update_self]
      exact (append_nil _).symm ▸ .refl _
    · show ((update (update xs l (xs l')) l' [] l).map (Loc.mk l.segment)).Perm
        ((xs l').map (Loc.mk l'.segment) ++ (xs l).map (Loc.mk l.segment))
      rw [update_of_ne hl, update_self, hseg, hxs]
      exact (append_nil _).symm ▸ .refl _

/-- A block of an inbox is given to a holder. -/
theorem unbox {rest : List Loc} (hbox : s.inbox pe = rest ++ [b]) :
    Shape ((s.setInbox pe rest).give b o) xs := by
  refine ⟨h.chains, h.placed.move [b] Place.noConfusion ?_ ?_
    (places_other (fun _ _ _ => rfl) (fun _ hpe _ => update_inbox_ne hpe)
      fun _ _ ho' => update_held_ne ho')⟩
  · show (s.inbox pe).Perm (b :: update s.inbox pe rest pe)
    rw [update_self, hbox]
    exact perm_append_singleton b rest
  · show (update s.held o (b :: s.held o) o).Perm (b :: s.held o)
    rw [update_self]

/-- A block goes from one holder to another. -/
theorem hand (hb : b ∈ s.held o) (ho : o ≠ o') : Shape ((s.drop b o).give b o') xs := by
  have hne : Place.held o ≠ .held o' := fun heq => ho (Place.held.inj heq)
  refine ⟨h.chains, h.placed.move [b] hne ?_ ?_ (places_other (fun _ _ _ => rfl) (fun _ _ _ => rfl)
      fun _ hk hk' => (update_held_ne hk').trans (update_held_ne hk))⟩
  · show (s.held o).Perm (b :: update (update s.held o ((s.held o).erase b)) o'
      (b :: update s.held o ((s.held o).erase b) o') o)
    rw [update_of_ne ho, update_self]
    exact perm_cons_erase hb
  · show (update (update s.held o ((s.held o).erase b)) o'
      (b :: update s.held o ((s.held o).erase b) o') o').Perm (b :: s.held o')
    rw [update_self, update_of_ne ho.symm]

/-- A list is taken into an inbox. -/
theorem take (pe : Nat) (l : ListName) (hfuel : (xs l).length ≤ s.heap l.segment) :
    Shape (s.takeInto pe l) (update xs l []) ∧
      s.takeInto pe l = { s with
        head := update s.head l listEnd
        inbox := update s.inbox pe (s.inbox pe ++ (xs l).map (Loc.mk l.segment)) } := by
  have heq : s.takeInto pe l = { s with
      head := update s.head l listEnd
      inbox := update s.inbox pe (s.inbox pe ++ (xs l).map (Loc.mk l.segment)) } := by
    rw [State.takeInto, State.takeList]
    by_cases hempty : s.head l = listEnd
    · rw [(h.chains l).head_eq_nil_iff.mp hempty]
      simp [State.setInbox, ← hempty]
    · rw [if_neg hempty, (h.chains l).walk_eq (Nat.lt_succ_of_le hfuel)]
      rfl
  refine ⟨?_, heq⟩
  rw [heq]
  refine ⟨fun k => ?_, ?_⟩
  · show Chain listEnd (fun y => s.next ⟨k.segment, y⟩) (update s.head l listEnd k)
      (update xs l [] k)
    rcases eq_or_ne k l with rfl | hk
    · rw [update_self, update_self]
      rfl
    · rw [update_of_ne hk, update_of_ne hk]
      exact h.chains k
  · refine h.placed.move ((xs l).map (Loc.mk l.segment))
      Place.noConfusion ?_ ?_
      (places_other (fun k hk _ => update_list_ne hk)
      (fun _ _ hpe => update_inbox_ne hpe) fun _ _ _ => rfl)
    · show ((xs l).map _).Perm (_ ++ (update xs l [] l).map _)
      rw [update_self]
      exact (append_nil _).symm ▸ .refl _
    · show (update s.inbox pe _ pe).Perm (_ ++ s.inbox pe)
      rw [update_self]
      exact perm_append_comm

/-- A block is cut from a segment and given to a holder. -/
theorem carve (hnew : ¬ s.Carved ⟨q, x⟩) (v bin pe : Nat) :
    Shape (State.give
      { s with
        next := update s.next ⟨q, x⟩ v
        carved := update s.carved q (⟨x, bin, pe⟩ :: s.carved q) } ⟨q, x⟩ o) xs := by
  have hout : ∀ i, (⟨q, x⟩ : Loc) ∉ places s xs i := fun i hi =>
    hnew ((h.placed.mem_iff _).mpr ⟨i, hi⟩)
  refine ⟨fun l => h.chain_of_not_mem (fun l y hy heq => ?_) l v, ?_⟩
  · exact hout (.list l) (heq ▸ mem_places_list.mpr ⟨rfl, hy⟩)
  · refine h.placed.insert (i := .held o) hnew (fun z => ?_) ?_ fun k hk => ?_
    · show (∃ c ∈ update s.carved q (⟨x, bin, pe⟩ :: s.carved q) z.proc, c.offset = z.offset) ↔ _
      rcases eq_or_ne z.proc q with hz | hz
      · cases z with
        | mk p y =>
          obtain rfl : p = q := hz
          simp [State.Carved, eq_comm]
      · rw [update_of_ne hz]
        exact ⟨.inr, fun hor => hor.resolve_left fun heq => hz (heq ▸ rfl)⟩
    · show (update s.held o (_ :: s.held o) o).Perm (_ :: s.held o)
      rw [update_self]
    · refine places_other ?_ ?_ ?_ k hk hk
      · exact fun _ _ _ => rfl
      · exact fun _ _ _ => rfl
      · exact fun _ _ ho' => update_held_ne ho'

end

end Shape

/-! ## Blocks in a segment -/

/-- The blocks lie one behind the other up to the heap, the last one first. -/
def Packed : (heap : Nat) → List Carving → Prop
  | heap, [] => heap = segmentBegin
  | heap, c :: cs => heap = c.offset + stride c.bin ∧ Packed c.offset cs

/-- A stride covers the block with its header and keeps the alignment. -/
theorem stride_spec (bin : Nat) :
    sizeofIpcBlock + kCutOffPoints bin ≤ stride bin ∧ stride bin % alignofIpcBlock = 0 := by
  simp only [stride, alignofIpcBlock]
  omega

theorem stride_pos (bin : Nat) : 0 < stride bin := by
  have := (stride_spec bin).1
  rw [sizeofIpcBlock] at this
  omega

namespace Packed

variable {heap : Nat} {cs : List Carving} {c : Carving}

/-- The offset of the heap is aligned. -/
theorem aligned (h : Packed heap cs) : heap % alignofIpcBlock = 0 ∧ segmentBegin ≤ heap := by
  induction cs generalizing heap with
  | nil =>
    rw [show heap = segmentBegin from h]
    decide
  | cons c cs ih =>
    obtain ⟨hmod, hle⟩ := ih h.2
    have hstride := (stride_spec c.bin).2
    rw [h.1]
    rw [alignofIpcBlock] at *
    omega

/-- What was cut lies between the begin of the segment and the heap offset. -/
theorem inside (h : Packed heap cs) (hc : c ∈ cs) : segmentBegin ≤ c.offset ∧
    c.offset % alignofIpcBlock = 0 ∧ c.offset + stride c.bin ≤ heap := by
  induction cs generalizing heap with
  | nil => cases hc
  | cons d cs ih =>
    rcases mem_cons.mp hc with rfl | hc
    · obtain ⟨hmod, hle⟩ := h.2.aligned
      exact ⟨hle, hmod, Nat.le_of_eq h.1.symm⟩
    · obtain ⟨hle, hmod, hend⟩ := ih h.2 hc
      rw [h.1]
      omega

/-- What was cut later lies behind. -/
theorem apart (h : Packed heap cs) : cs.Pairwise fun c d => d.offset + stride d.bin ≤ c.offset := by
  induction cs generalizing heap with
  | nil => exact Pairwise.nil
  | cons c cs ih => exact pairwise_cons.mpr ⟨fun d hd => (h.2.inside hd).2.2, ih h.2⟩

end Packed

/-! ## The invariant -/

/-- What the header of a block says. -/
structure HeaderOk (s : State) (b : Loc) (c : Carving) : Prop where
  bin : c.bin < kIpcRetBins
  size : s.size b = kCutOffPoints c.bin
  owner : s.owner b = c.pe
  segment : s.segmentProc b = b.proc

/-- A header that was not written. -/
theorem HeaderOk.congr {s s' : State} {b : Loc} {c : Carving} (h : HeaderOk s b c)
    (hsize : s'.size b = s.size b) (howner : s'.owner b = s.owner b)
    (hsegment : s'.segmentProc b = s.segmentProc b) : HeaderOk s' b c :=
  ⟨h.bin, hsize.trans h.size, howner.trans h.owner, hsegment.trans h.segment⟩

/-- The blocks in a list: the caches and the return lists have blocks of one bin that were cut for
the PE of the list, the receive queues have blocks with messages for the PE or the process. -/
def Home (m : Machine) (s : State) (x : Nat) : ListName → Prop
  | .cache q pe bin => ∃ c ∈ s.carved q, c.offset = x ∧ c.pe = pe ∧ c.bin = bin
  | .ret q pe bin => ∃ c ∈ s.carved q, c.offset = x ∧ c.pe = pe ∧ c.bin = bin
  | .rq q rank => s.dest ⟨q, x⟩ = rank ∧ rank ≠ nodeDatagram ∧ rank < m.nodeSize
  | .nodeRq q => s.dest ⟨q, x⟩ = nodeDatagram

/-- A PE in `CmiMsgToIpcBlock` has the block that it will free. -/
def Keeps (held : List Loc) : Pc → Prop
  | .carve _ bin pending =>
    bin < kIpcRetBins ∧ ∀ p ∈ pending, ∀ src ∈ p.src, src ∈ held
  | .release src => src ∈ held
  | _ => True

/-- A block with a message for a PE, not for the process. -/
def State.ForPe (s : State) (b : Loc) : Prop := s.dest b ≠ nodeDatagram

instance (s : State) : DecidablePred s.ForPe := fun _ => inferInstanceAs (Decidable (_ ≠ _))

/-- The blocks with messages for a PE that have not arrived, the oldest one first. -/
def waiting (m : Machine) (s : State) (xs : ListName → List Nat) (d : Nat) : List Loc :=
  ((s.inbox d).filter fun b => s.ForPe b).reverse ++
    ((xs (.rq (m.cmiNodeOf d) (m.cmiRankOf d))).map (Loc.mk (m.cmiNodeOf d))).reverse

/-- The pushes to a PE are those that have arrived and those that wait, in this order. -/
def Ordered (m : Machine) (s : State) (xs : ListName → List Nat) (d : Nat) : Prop :=
  s.pushed d = s.arrived d ++ (waiting m s xs d).map s.ticket

/-- The pushes to a PE were made one after the other. -/
def Timed (s : State) (d : Nat) : Prop :=
  (s.pushed d).Pairwise (fun t t' => t.time < t'.time) ∧ ∀ t ∈ s.pushed d, t.time < s.clock

/-- The blocks in an inbox: their messages are for the PE or its process. -/
def InboxOk (m : Machine) (s : State) (pe : Nat) (b : Loc) : Prop :=
  b.proc = m.cmiNodeOf pe ∧ (s.dest b = m.cmiRankOf pe ∨ s.dest b = nodeDatagram)

/-- The invariant of the pool. -/
structure Inv (m : Machine) (s : State) (xs : ListName → List Nat) : Prop extends Shape s xs where
  space : ∀ q, Packed (s.heap q) (s.carved q)
  fits : ∀ q, s.heap q ≤ s.max q ∧ s.max q < 2 ^ 63
  header : ∀ q, ∀ c ∈ s.carved q, HeaderOk s ⟨q, c.offset⟩ c
  home : ∀ l, ∀ x ∈ xs l, Home m s x l
  inboxes : ∀ pe, ∀ b ∈ s.inbox pe, InboxOk m s pe b
  keeps : ∀ pe, Keeps (s.held (.pe pe)) (s.pc pe)
  order : ∀ d, Ordered m s xs d
  times : ∀ d, Timed s d

/-- The invariant holds of the empty pool. -/
theorem initial_inv (host : Host) : Inv host.toMachine (.initial host) fun _ => [] where
  chains _ := rfl
  placed := by
    refine ⟨fun i => ?_, fun i j b hb => ?_, fun b => ⟨?_, ?_⟩⟩
    · cases i <;> exact nodup_nil
    · cases i <;> cases hb
    · rintro ⟨c, hc, -⟩
      cases hc
    · rintro ⟨i, hi⟩
      cases i <;> cases hi
  space _ := rfl
  fits _ := ⟨Nat.le_add_right .., host.mapped⟩
  header _ _ hc := by cases hc
  home _ _ hx := by cases hx
  inboxes _ _ hb := by cases hb
  keeps _ := trivial
  order _ := rfl
  times _ := ⟨Pairwise.nil, nofun⟩

/-! ## Consequences -/

namespace Inv

section

variable (h : Inv m s xs)

include h

/-- The header of a block of the pool. -/
theorem carving (hb : b ∈ places s xs i) :
    ∃ c ∈ s.carved b.proc, c.offset = b.offset ∧ HeaderOk s b c := by
  obtain ⟨c, hc, hoff⟩ := (h.placed.mem_iff b).mpr ⟨i, hb⟩
  refine ⟨c, hc, hoff, ?_⟩
  have hheader := h.header b.proc c hc
  rw [hoff] at hheader
  exact hheader

/-- Every block lies below the heap offset. -/
theorem offset_lt (hb : b ∈ places s xs i) : b.offset < s.heap b.proc := by
  obtain ⟨c, hc, hoff, -⟩ := h.carving hb
  have hin := (h.space b.proc).inside hc
  have := stride_pos c.bin
  omega

/-- No block has the offset that ends a list. -/
theorem offset_ne_end (hb : b ∈ places s xs i) : b.offset ≠ listEnd := by
  have hlt := h.offset_lt hb
  have hfits := h.fits b.proc
  rw [listEnd]
  omega

/-- There are fewer blocks in a list than bytes below the heap. -/
theorem length_le (l : ListName) : (xs l).length ≤ s.heap l.segment := by
  have hnodup : (xs l).Nodup := Nodup.of_map _ (h.placed.nodup (.list l))
  have hsub : xs l ⊆ range (s.heap l.segment) := fun x hx => by
    have hplace : (⟨l.segment, x⟩ : Loc) ∈ places s xs (.list l) := mem_places_list.mpr ⟨rfl, hx⟩
    exact mem_range.mpr (h.offset_lt hplace)
  simpa using (subperm_of_subset hnodup hsub).length_le

/-- The next block was not cut yet. -/
theorem heap_not_carved (q : Nat) : ¬ s.Carved ⟨q, s.heap q⟩ := by
  rintro ⟨c, hc, hoff⟩
  have hin := (h.space q).inside hc
  have := stride_pos c.bin
  simp only at hoff
  omega

end

end Inv

end Reconverse.Ipc
