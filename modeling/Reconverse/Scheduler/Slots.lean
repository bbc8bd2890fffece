import Reconverse.Scheduler.Registry

/-!
# Every handler owns a slot

`add_list_of_handlers` gives each handler at least one slot, takes slots only from handlers with
more than one, and puts a handler only where no other is. So the table holds every handler as often
as it has slots (`add_list_serves`), whatever the weights are.
-/

namespace Reconverse.Scheduler

open List

/-! ## The numbers of slots -/

theorem le_foldl_max (slots : List Nat) (n : Nat) :
    n ≤ slots.foldl max n ∧ ∀ x ∈ slots, x ≤ slots.foldl max n := by
  induction slots generalizing n with
  | nil => exact ⟨le_refl n, nofun⟩
  | cons y slots ih =>
    obtain ⟨hle, hmem⟩ := ih (max n y)
    refine ⟨le_trans (le_max_left ..) hle, fun x hx => ?_⟩
    rcases mem_cons.mp hx with rfl | hx
    · exact le_trans (le_max_right ..) hle
    · exact hmem x hx

theorem foldl_max_mem (slots : List Nat) (n : Nat) :
    slots.foldl max n = n ∨ slots.foldl max n ∈ slots := by
  induction slots generalizing n with
  | nil => exact .inl rfl
  | cons y slots ih =>
    rw [foldl_cons]
    rcases ih (max n y) with h | h
    · rcases le_total n y with hle | hle
      · rw [h, max_eq_right hle]
        exact .inr mem_cons_self
      · rw [h, max_eq_left hle]
        exact .inl rfl
    · exact .inr (mem_cons_of_mem _ h)

variable {slots : List Nat} {i : Nat}

/-- The handler with the most slots has at least as many as any other. -/
theorem le_max_element {x : Nat} (hx : x ∈ slots) : x ≤ slots.getD (maxElement slots) 0 := by
  have hle := (le_foldl_max slots 0).2 x hx
  rcases foldl_max_mem slots 0 with hzero | hmem
  · omega
  · rw [maxElement, getD_eq_getElem _ _ (idxOf_lt_length_of_mem hmem), getElem_idxOf]
    exact hle

/-- One slot less. -/
theorem sum_modify_pred (h : 1 ≤ slots.getD i 0) :
    (slots.modify i (· - 1)).sum + 1 = slots.sum := by
  induction slots generalizing i with
  | nil => exact absurd h (by simp)
  | cons x slots ih =>
    cases i with
    | zero =>
      have hx : 1 ≤ x := h
      rw [modify_zero_cons, sum_cons, sum_cons]
      omega
    | succ i =>
      have hrest := ih h
      rw [modify_succ_cons, sum_cons, sum_cons]
      omega

/-- A handler with two slots keeps one. -/
theorem modify_pred_pos (hpos : ∀ x ∈ slots, 1 ≤ x)
    (h : 2 ≤ slots.getD i 0) : ∀ x ∈ slots.modify i (· - 1), 1 ≤ x := by
  induction slots generalizing i with
  | nil => exact absurd h (by simp)
  | cons y slots ih =>
    obtain ⟨hy, hrest⟩ := forall_mem_cons.mp hpos
    cases i with
    | zero =>
      have hy : 2 ≤ y := h
      exact forall_mem_cons.mpr ⟨Nat.le_sub_of_add_le hy, hrest⟩
    | succ i => exact forall_mem_cons.mpr ⟨hy, ih hrest h⟩

theorem sum_le_length (h : ∀ x ∈ slots, x ≤ 1) : slots.sum ≤ slots.length := by
  induction slots with
  | nil => exact le_refl 0
  | cons x slots ih =>
    obtain ⟨hx, hrest⟩ := forall_mem_cons.mp h
    have := ih hrest
    rw [sum_cons, length_cons]
    omega

theorem modify_pred_le (slots : List Nat) (i j : Nat) :
    (slots.modify i (· - 1)).getD j 0 ≤ slots.getD j 0 := by
  rw [getD_eq_getElem?_getD, getD_eq_getElem?_getD, getElem?_modify]
  cases slots[j]? with
  | none => exact le_refl 0
  | some n =>
    show (if i = j then n - 1 else n) ≤ n
    split <;> omega

/-- Slots that are taken away leave every handler one, and fill the table. -/
theorem trim_spec (excess : Nat) (hpos : ∀ x ∈ slots, 1 ≤ x)
    (hlength : slots.length ≤ schedTableSize) (hsum : slots.sum = schedTableSize + excess) :
    (trim excess slots).length = slots.length ∧ (∀ x ∈ trim excess slots, 1 ≤ x) ∧
      (∀ i, (trim excess slots).getD i 0 ≤ slots.getD i 0) ∧
      (trim excess slots).sum = schedTableSize := by
  induction excess generalizing slots with
  | zero => exact ⟨rfl, hpos, fun _ => le_refl _, hsum⟩
  | succ excess ih =>
    rw [trim]
    split
    · -- All handlers have one slot, and there are too many of them.
      rename_i hmax
      have hle : ∀ x ∈ slots, x ≤ 1 := fun x hx => le_trans (le_max_element hx) hmax
      have := sum_le_length hle
      omega
    · have hsum' : (slots.modify (maxElement slots) (· - 1)).sum + 1 = slots.sum :=
        sum_modify_pred (by omega)
      obtain ⟨hlen, hone, hle, hfull⟩ :=
        ih (modify_pred_pos hpos (by omega : 2 ≤ slots.getD (maxElement slots) 0))
          (by rwa [length_modify]) (by omega)
      refine ⟨hlen.trans (length_modify ..), hone, fun i => ?_, hfull⟩
      exact le_trans (hle i) (modify_pred_le ..)

/-- The loop as the function calls it. -/
theorem trim_shares (hpos : ∀ x ∈ slots, 1 ≤ x) (hlength : slots.length ≤ schedTableSize) :
    (trim (slots.sum - schedTableSize) slots).length = slots.length ∧
      (∀ x ∈ trim (slots.sum - schedTableSize) slots, 1 ≤ x) ∧
      (slots.sum ≤ schedTableSize → trim (slots.sum - schedTableSize) slots = slots) ∧
      (schedTableSize < slots.sum →
        (∀ i, (trim (slots.sum - schedTableSize) slots).getD i 0 ≤ slots.getD i 0) ∧
        (trim (slots.sum - schedTableSize) slots).sum = schedTableSize) := by
  rcases lt_or_ge schedTableSize slots.sum with hlt | hle
  · obtain ⟨hlen, hone, htrim⟩ := trim_spec (slots.sum - schedTableSize) hpos hlength (by omega)
    exact ⟨hlen, hone, fun h => absurd hlt (not_lt.mpr h), fun _ => htrim⟩
  · rw [Nat.sub_eq_zero_of_le hle]
    exact ⟨rfl, hpos, fun _ => rfl, fun h => absurd hle (not_le.mpr h)⟩

/-! ## The slots of the table -/

variable {Fn : Type} {table rest : List (Option Fn)} {handlers : List (Fn × Nat)} {index : Nat}

/-- The search for a free slot comes to one, if there is one on its way. -/
theorem next_empty_spec (fuel : Nat) (hindex : index < schedTableSize) {k : Nat} (hk : k < fuel)
    (hfree : table.getD ((index + k) % schedTableSize) none = none) :
    nextEmpty table fuel index < schedTableSize ∧
      table.getD (nextEmpty table fuel index) none = none := by
  induction fuel generalizing index k with
  | zero => omega
  | succ fuel ih =>
    rw [nextEmpty]
    split
    · rename_i hsome
      -- The slot at `index` is not the free one.
      cases k with
      | zero =>
        rw [add_zero, Nat.mod_eq_of_lt hindex] at hfree
        rw [hfree] at hsome
        cases hsome
      | succ k =>
        refine ih (Nat.mod_lt _ (Nat.lt_of_le_of_lt (Nat.zero_le _) hindex))
          (Nat.lt_of_succ_lt_succ hk) ?_
        rw [Nat.mod_add_mod]
        rwa [add_assoc, add_comm 1 k]
    · rename_i hnone
      exact ⟨hindex, by simpa using hnone⟩

/-- A table that is not full has a free slot for the search. -/
theorem next_empty_free (hlength : table.length = schedTableSize) (hfree : none ∈ table)
    (hindex : index < schedTableSize) :
    nextEmpty table schedTableSize index < schedTableSize ∧
      table.getD (nextEmpty table schedTableSize index) none = none := by
  obtain ⟨p, hp, hentry⟩ := getElem_of_mem hfree
  refine next_empty_spec schedTableSize hindex (k := (p + schedTableSize - index) % schedTableSize)
    (Nat.mod_lt _ (by decide)) ?_
  rw [hlength] at hp
  rw [Nat.add_mod_mod, show index + (p + schedTableSize - index) = p + schedTableSize by omega,
    Nat.add_mod_right, Nat.mod_eq_of_lt hp, getD_eq_getElem _ _ (hlength ▸ hp)]
  exact hentry

/-- A handler is put into a free slot. -/
theorem set_perm {p : Nat} (hp : p < table.length) (hfree : table.getD p none = none)
    (hperm : table.Perm (none :: rest)) (fn : Fn) :
    (table.set p (some fn)).Perm (some fn :: rest) := by
  rw [getD_eq_getElem _ _ hp] at hfree
  have herase := (getElem_cons_eraseIdx_perm hp).trans hperm
  rw [hfree] at herase
  exact (set_perm_cons_eraseIdx hp _).trans (herase.cons_inv.cons _)

/-- A handler gets its slots in a table that has them. -/
theorem assign_perm (fn : Fn) (step remaining : Nat)
    (hlength : table.length = schedTableSize) (hindex : index < schedTableSize)
    (hperm : table.Perm (List.replicate remaining none ++ rest)) :
    (assign fn step remaining index table).Perm (List.replicate remaining (some fn) ++ rest) := by
  induction remaining generalizing index table rest with
  | zero => exact hperm
  | succ remaining ih =>
    have hfree : none ∈ table := hperm.mem_iff.mpr mem_cons_self
    have hroom : table.countP (·.isSome) < table.length :=
      countP_lt_length_iff.mpr ⟨none, hfree, rfl⟩
    obtain ⟨hlt, hnone⟩ := next_empty_free hlength hfree hindex
    have hset := set_perm (hlength.symm ▸ hlt) hnone hperm fn
    rw [assign, if_neg (not_le.mpr (hlength ▸ hroom))]
    refine (ih (length_set.trans hlength) (Nat.mod_lt _ (by decide))
      (hset.trans perm_middle.symm)).trans ?_
    exact perm_middle

/-- Every handler gets its slots. -/
theorem assign_all_perm {current : Nat}
    (hlength : table.length = schedTableSize) (hcurrent : current < schedTableSize)
    (hperm : table.Perm (List.replicate (handlers.map Prod.snd).sum none ++ rest)) :
    (assignAll current handlers table).Perm
      (handlers.flatMap (fun handler => List.replicate handler.2 (some handler.1)) ++ rest) := by
  induction handlers generalizing current table rest with
  | nil => exact hperm
  | cons handler handlers ih =>
    rw [map_cons, sum_cons, replicate_add, append_assoc] at hperm
    have hassign := assign_perm handler.1
      (schedTableSize / handler.2) handler.2 hlength hcurrent hperm
    rw [flatMap_cons, append_assoc]
    refine (ih ?_ (Nat.mod_lt (current + 1) (by decide))
      (hassign.trans (perm_append_comm_assoc ..))).trans (perm_append_comm_assoc ..)
    rw [hassign.length_eq, ← hlength, hperm.length_eq]
    simp only [length_append, length_replicate]

/-- The table has `slots[i]` entries of handler `i` and `pollNoWork` in all others. The slots are
the shares, reduced as far as the table demands it. -/
structure Serves (pollNoWork : Fn) (fns : List Fn) (shares slots : List Nat) (table : List Fn) :
    Prop where
  length_eq : slots.length = fns.length
  entries : table.Perm
    ((fns.zip slots).flatMap (fun handler => List.replicate handler.2 handler.1) ++
    List.replicate (schedTableSize - slots.sum) pollNoWork)
  one_le : ∀ n ∈ slots, 1 ≤ n
  sum_le : slots.sum ≤ schedTableSize
  exact : shares.sum ≤ schedTableSize → slots = shares
  trimmed : schedTableSize < shares.sum →
    (∀ i, slots.getD i 0 ≤ shares.getD i 0) ∧ slots.sum = schedTableSize

/-- The table serves every handler. -/
theorem add_list_serves (pollNoWork : Fn) (hlength : handlers.length ≤ schedTableSize)
    (htotal : unsigned32 (handlers.map Prod.snd).sum ≠ 0) :
    ∃ table slots, addListOfHandlers pollNoWork handlers = some table ∧
      Serves pollNoWork (handlers.map Prod.fst)
        (handlers.map fun handler => normalized (unsigned32 (handlers.map Prod.snd).sum) handler.2)
        slots table := by
  simp only [addListOfHandlers, if_neg htotal]
  generalize unsigned32 (handlers.map Prod.snd).sum = total
  have hone : ∀ x ∈ handlers.map fun handler => normalized total handler.2, 1 ≤ x := by
    intro x hx
    obtain ⟨handler, -, rfl⟩ := mem_map.mp hx
    exact le_max_left ..
  have hshares : (handlers.map fun handler => normalized total handler.2).length =
      handlers.length :=
    length_map _
  generalize (handlers.map fun handler => normalized total handler.2) = shares at hone hshares
  obtain ⟨hlen, hpos, hexact, htrimmed⟩ := trim_shares hone (hshares ▸ hlength)
  generalize trim (shares.sum - schedTableSize) shares = slots at hlen hpos hexact htrimmed
  have hsum : slots.sum ≤ schedTableSize := by
    rcases lt_or_ge schedTableSize shares.sum with hlt | hle
    · exact le_of_eq (htrimmed hlt).2
    · exact hexact hle ▸ hle
  refine ⟨_, slots, rfl, ?_, ?_, hpos, hsum, hexact, htrimmed⟩
  · rw [hlen, hshares, length_map]
  have hzip : ((handlers.map Prod.fst).zip slots).map Prod.snd = slots :=
    map_snd_zip (by rw [length_map]; omega)
  have hempty : List.replicate schedTableSize (none : Option Fn) =
      List.replicate (((handlers.map Prod.fst).zip slots).map Prod.snd).sum none ++
        List.replicate (schedTableSize - slots.sum) none := by
    rw [hzip, ← replicate_add, Nat.add_sub_cancel' hsum]
  have hperm := assign_all_perm (length_replicate ..) (show 0 < schedTableSize by decide)
    (List.Perm.of_eq hempty)
  refine (hperm.map (·.getD pollNoWork)).trans ?_
  rw [map_append, map_flatMap]
  simp only [map_replicate, Option.getD_some, Option.getD_none]
  exact .refl _

/-- Every handler owns a slot of the table. -/
theorem mem_of_add_list {pollNoWork : Fn} {table : List Fn}
    (hlength : handlers.length ≤ schedTableSize)
    (h : addListOfHandlers pollNoWork handlers = some table) :
    table.length = schedTableSize ∧ ∀ handler ∈ handlers, handler.1 ∈ table := by
  have htotal : unsigned32 (handlers.map Prod.snd).sum ≠ 0 := by
    intro hzero
    rw [addListOfHandlers, if_pos hzero] at h
    cases h
  obtain ⟨table', slots, htable, hserves⟩ := add_list_serves pollNoWork hlength htotal
  cases htable.symm.trans h
  have hsnd : ((handlers.map Prod.fst).zip slots).map Prod.snd = slots :=
    map_snd_zip (le_of_eq hserves.length_eq)
  have hfst : ((handlers.map Prod.fst).zip slots).map Prod.fst = handlers.map Prod.fst :=
    map_fst_zip (le_of_eq hserves.length_eq.symm)
  constructor
  · rw [hserves.entries.length_eq, length_append, length_flatMap]
    simp only [length_replicate]
    rw [hsnd, Nat.add_sub_cancel' hserves.sum_le]
  · intro handler hmem
    have hfn : handler.1 ∈ ((handlers.map Prod.fst).zip slots).map Prod.fst := by
      rw [hfst]
      exact mem_map_of_mem hmem
    obtain ⟨entry, hentry, heq⟩ := mem_map.mp hfn
    have hpos := hserves.one_le _ (of_mem_zip hentry).2
    refine hserves.entries.mem_iff.mpr (mem_append_left _ (mem_flatMap.mpr ⟨entry, hentry, ?_⟩))
    exact heq ▸ mem_replicate.mpr ⟨Nat.ne_of_gt hpos, rfl⟩

/-- The handler in a slot that it owns. -/
theorem exists_slot {table : List Poll} (hlength : table.length = schedTableSize) {fn : Poll}
    (h : fn ∈ table) : ∃ p < schedTableSize, table.getD p .noWork = fn := by
  obtain ⟨p, hp, rfl⟩ := getElem_of_mem h
  exact ⟨p, hlength ▸ hp, getD_eq_getElem _ _ hp⟩

/-! ## The shares -/

/-- The share of a weight in the table: the exact quotient with halves rounded up, and at least
1. -/
def share (total weight : Nat) : Nat := max 1 ⌊(64 * weight / total : ℚ) + 1 / 2⌋₊

/-- What is known of the rounding to a `double`: it is exact on numbers of 53 bits. -/
structure Rounding (rnd : ℚ → ℚ) : Prop where
  mono : Monotone rnd
  exact : ∀ n : Nat, n < 2 ^ 53 → rnd (n / 2 ^ 34) = n / 2 ^ 34

/-- The quotient is a half, or it differs from every half by more than `2 ^ (-33)`. -/
theorem normalized_eq_lround {rnd : ℚ → ℚ} (hrnd : Rounding rnd) {total weight : Nat}
    (hle : weight ≤ total) (hweight : weight < 2 ^ 26) (hpos : 0 < total)
    (htotal : total < 2 ^ 32) :
    normalized total weight = max 1 ⌊rnd (64 * weight / total) + 1 / 2⌋₊ := by
  have hpos' : (0 : ℚ) < total := Nat.cast_pos.mpr hpos
  rw [normalized, schedTableSize, unsigned32, Nat.mod_eq_of_lt (by omega)]
  obtain ⟨k, hk⟩ : ∃ k, (2 * (weight * 64) + total) / (2 * total) = k := ⟨_, rfl⟩
  obtain ⟨hlo, hhi⟩ := (Nat.div_eq_iff (by omega)).mp hk
  have hk64 : k < 65 := by
    refine Nat.lt_of_mul_lt_mul_right (a := 2 * total) ?_
    omega
  have hmul : k * (2 * total) = 2 * (k * total) := by ring
  have hlow : (((2 * k - 1) * 2 ^ 33 : Nat) : ℚ) / 2 ^ 34 ≤ rnd (64 * weight / total) := by
    rw [← hrnd.exact _ (by omega)]
    refine hrnd.mono ((div_le_div_iff₀ (by norm_num) hpos').mpr ?_)
    have hnat : (2 * k - 1) * 2 ^ 33 * total ≤ 64 * weight * 2 ^ 34 := by
      rw [Nat.mul_right_comm, Nat.sub_mul, mul_assoc 2 k]
      omega
    exact_mod_cast hnat
  have hhigh : rnd (64 * weight / total) ≤ (((2 * k + 1) * 2 ^ 33 - 2 : Nat) : ℚ) / 2 ^ 34 := by
    rw [← hrnd.exact _ (by omega)]
    refine hrnd.mono ((div_le_div_iff₀ hpos' (by norm_num)).mpr ?_)
    have hnat : 64 * weight * 2 ^ 34 ≤ ((2 * k + 1) * 2 ^ 33 - 2) * total := by
      rw [Nat.sub_mul, show (2 * k + 1) * 2 ^ 33 * total =
        2 ^ 33 * (2 * (k * total) + total) by ring]
      omega
    exact_mod_cast hnat
  have hnonneg : 0 ≤ rnd (64 * weight / total) := le_trans (by positivity) hlow
  rw [hk, (Nat.floor_eq_iff (by positivity)).mpr ⟨?_, ?_⟩]
  · cases k with
    | zero => positivity
    | succ k =>
      rw [show 2 * (k + 1) - 1 = 2 * k + 1 by omega] at hlow
      push_cast at hlow ⊢
      linarith
  · rw [Nat.cast_sub (by omega)] at hhigh
    push_cast at hhigh
    linarith

/-- Every handler has exactly its slots in the table. -/
theorem slot_table_serves (pollNoWork : Fn) (handlers : List (Fn × Nat))
    (hlength : handlers.length ≤ schedTableSize)
    (hweights : ∀ handler ∈ handlers, handler.2 < 2 ^ 26)
    (hpos : 0 < (handlers.map Prod.snd).sum) (htotal : (handlers.map Prod.snd).sum < 2 ^ 32) :
    ∃ table slots, addListOfHandlers pollNoWork handlers = some table ∧
      Serves pollNoWork (handlers.map Prod.fst)
        (handlers.map fun handler => share (handlers.map Prod.snd).sum handler.2) slots table := by
  have hwrap : unsigned32 (handlers.map Prod.snd).sum = (handlers.map Prod.snd).sum :=
    Nat.mod_eq_of_lt htotal
  have hshares : (handlers.map fun handler => normalized (handlers.map Prod.snd).sum handler.2) =
      handlers.map fun handler => share (handlers.map Prod.snd).sum handler.2 := by
    refine map_congr_left fun handler hmem => ?_
    have hid : Rounding id := ⟨monotone_id, fun _ _ => rfl⟩
    exact normalized_eq_lround hid
      (single_le_sum (fun _ _ => Nat.zero_le _) _ (mem_map_of_mem hmem))
      (hweights handler hmem) hpos htotal
  obtain ⟨table, slots, htable, hserves⟩ :=
    add_list_serves pollNoWork hlength (by rw [hwrap]; exact Nat.ne_of_gt hpos)
  rw [hwrap, hshares] at hserves
  exact ⟨table, slots, htable, hserves⟩

/-- One handler of weight 1 beside one of weight 200. -/
theorem light_handler_served : ∃ table slots,
    addListOfHandlers Poll.noWork [(.progress, 1), (.threadPrioQueue, 200)] = some table ∧
      Serves Poll.noWork [.progress, .threadPrioQueue] [share 201 1, share 201 200] slots table :=
  slot_table_serves Poll.noWork [(.progress, 1), (.threadPrioQueue, 200)] (by decide) (by decide)
    (by decide) (by decide)

end Reconverse.Scheduler
