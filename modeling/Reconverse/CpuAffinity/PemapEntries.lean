import Reconverse.CpuAffinity.Pemap

/-!
# PE maps follow their grammar

An item is read as it is written (`readItem_text`), and the loops then write its entries, cut off at
the number of PEs (`Emits`). The entry of a PE is the one that the grammar denotes, if there is any.
-/

namespace Reconverse.CpuAffinity

open Lib Lib.CInt Lib.Scan List

/-- Numbers as `int`s. -/
def ints (xs : List Nat) : List Int := xs.map fun x : Nat => (x : Int)

theorem ints_append (xs ys : List Nat) : ints (xs ++ ys) = ints xs ++ ints ys := map_append

theorem fits_of_le {n : Nat} (h : (n : Int) ≤ intMax) : Fits n :=
  ⟨by omega, h⟩

theorem addInt_eq {a b : Int} (h : Fits (a + b)) : defined (addInt a b) = .ok (a + b) := by
  rw [addInt, if_pos h]
  rfl

theorem scan_eq {format : List Directive} {s : List Char} {values : List Int}
    (h : sscanf format s = some values) : scan format s = .ok values := by
  rw [scan, h]
  rfl

/-! ## Reading an item -/

/-- The scan skips digits. -/
theorem scanItem_digits {ds : List Char} (hds : ∀ c ∈ ds, c.isDigit = true) (first : Bool)
    (s : List Char) (f : Flags) : scanItem first (ds ++ s) f =
    scanItem (first && ds.isEmpty) s f := by
  induction ds generalizing first with
  | nil =>
    show scanItem first s f = _
    rw [isEmpty_nil, Bool.and_true]
  | cons c ds ih =>
    obtain ⟨hc, hds⟩ := forall_mem_cons.mp hds
    have hne : ∀ c', c'.isDigit = false → c ≠ c' := fun _ => isDigit_ne hc
    rw [cons_append, scanItem, if_neg fun h => hne '-' (by decide) h.1,
      if_neg (hne ':' (by decide)), if_neg (hne '.' (by decide)), if_neg (hne 'x' (by decide)),
      if_neg (hne 'X' (by decide)), if_neg (hne '+' (by decide)), ih hds]
    rw [isEmpty_cons, Bool.and_false, Bool.false_and]

/-- It skips a number. -/
theorem scanItem_numeral (m : Numeral) (first : Bool) (s : List Char) (f : Flags) :
    scanItem first (m.digits ++ s) f = scanItem false s f := by
  obtain ⟨c, ds, hdigits, -⟩ := m.exists_cons
  rw [scanItem_digits m.isDigit, hdigits, isEmpty_cons, Bool.and_false]

/-- An offset is read where it starts. -/
theorem scanItem_plus {m : Numeral} (hm : (m.value : Int) ≤ intMax) {s : List Char} (hs : Stops s)
    {f : Flags} (hf : f.plus.length < 127) :
    scanItem false ('+' :: (m.digits ++ s)) f =
      scanItem false s { f with plus := f.plus ++ [(m.value : Int)] } := by
  obtain ⟨c, ds, hdigits, hc⟩ := m.exists_cons
  have hhead : ¬ ((m.digits ++ s).head? = some '+' ∨ (m.digits ++ s).head? = some '-') := by
    rw [hdigits]
    rintro (h | h) <;> exact isDigit_ne hc (by decide) (Option.some.inj h)
  have hscan : scan [.lit '+', .d] ('+' :: (m.digits ++ s)) = .ok [(m.value : Int)] := by
    refine scan_eq ?_
    rw [sscanf_lit, m.sscanf_d (fits_of_le hm) hs]
    rfl
  rw [scanItem, if_neg hhead, hscan]
  show (if f.plus.length + 1 < 128 then _ else _) = _
  rw [if_pos (by omega), scanItem_numeral]

theorem stops_offs (offs : List Numeral) : Stops (offs.flatMap fun o => '+' :: o.digits) := by
  cases offs with
  | nil => exact stops_nil
  | cons o offs => exact stops_cons (by decide) _

/-- It collects the offsets. -/
theorem scanItem_offs {offs : List Numeral} (hoffs : ∀ m ∈ offs, (m.value : Int) ≤ intMax)
    {f : Flags} (hlen : f.plus.length + offs.length ≤ 127) :
    scanItem false (offs.flatMap fun o => '+' :: o.digits) f =
      .ok { f with plus := f.plus ++ offs.map fun m => (m.value : Int) } := by
  induction offs generalizing f with
  | nil =>
    rw [map_nil, append_nil]
    rfl
  | cons o offs ih =>
    obtain ⟨ho, hoffs⟩ := forall_mem_cons.mp hoffs
    rw [length_cons] at hlen
    rw [flatMap_cons, cons_append, scanItem_plus ho (stops_offs offs) (by omega),
      ih hoffs (by simp; omega)]
    simp

namespace Item

variable {t : Item}

/-- What the loop over the characters finds. -/
def flags (t : Item) : Flags where
  hasdash := t.range.isSome
  hascolon := (t.range.bind fun r => r.2).isSome
  hasdot := ((t.range.bind fun r => r.2).bind fun r => r.2).isSome
  hasstar1 := t.reps.any fun r => !r.2
  hasstar2 := t.reps.any fun r => r.2
  plus := t.offs.map fun m => (m.value : Int)

theorem Ok.offs_values_le (h : t.Ok) : ∀ m ∈ t.offs, (m.value : Int) ≤ intMax :=
  fun m hm => h.numerals_le m (by simp [numerals, hm])

/-- The loop over the repetitions and the start. -/
theorem scanItem_start (t : Item) (s : List Char) :
    scanItem true (t.repsText ++ (t.start.digits ++ s)) {} =
      scanItem false s { hasstar1 := t.flags.hasstar1, hasstar2 := t.flags.hasstar2 } := by
  unfold repsText flags
  match hreps : t.reps with
  | none =>
    show scanItem true (t.start.digits ++ s) {} = _
    rw [scanItem_numeral]
    rfl
  | some (n, false) =>
    rw [append_assoc, scanItem_numeral]
    show scanItem false (t.start.digits ++ s) _ = _
    rw [scanItem_numeral]
    rfl
  | some (n, true) =>
    rw [append_assoc, scanItem_numeral]
    show scanItem false (t.start.digits ++ s) _ = _
    rw [scanItem_numeral]
    rfl

/-- It notes which parts of a range are given. -/
theorem scanItem_range (t : Item) (s : List Char) (star1 star2 : Bool) :
    scanItem false (t.rangeText ++ s) { hasstar1 := star1, hasstar2 := star2 } =
      scanItem false s { t.flags with hasstar1 := star1, hasstar2 := star2, plus := [] } := by
  unfold rangeText flags
  match hrange : t.range with
  | none => rfl
  | some (last, none) =>
    show scanItem false (last.digits ++ s) _ = _
    rw [scanItem_numeral]
    rfl
  | some (last, some (stride, none)) =>
    show scanItem false ((last.digits ++ ':' :: stride.digits) ++ s) _ = _
    rw [append_assoc, scanItem_numeral]
    show scanItem false (stride.digits ++ s) _ = _
    rw [scanItem_numeral]
    rfl
  | some (last, some (stride, some block)) =>
    show scanItem false ((last.digits ++ ':' :: (stride.digits ++ '.' :: block.digits)) ++ s) _ = _
    rw [append_assoc, scanItem_numeral]
    show scanItem false ((stride.digits ++ '.' :: block.digits) ++ s) _ = _
    rw [append_assoc, scanItem_numeral]
    show scanItem false (block.digits ++ s) _ = _
    rw [scanItem_numeral]
    rfl

/-- The scan of a well-formed item finds its parts. -/
theorem Ok.scan_text (h : t.Ok) : scanItem true t.text {} = .ok t.flags := by
  unfold text
  rw [scanItem_start, scanItem_range]
  unfold offsText
  rw [scanItem_offs h.offs_values_le (by simpa using h.offs_le)]
  rfl

/-- The repetitions are read and skipped. -/
theorem Ok.readIter_text (h : t.Ok) : readIter t.flags t.text =
    .ok ((t.n : Int), t.start.digits ++ (t.rangeText ++ t.offsText)) := by
  have hdrop : ∀ (m : Numeral) (c : Char) (s : List Char), c = 'x' ∨ c = 'X' →
      ((m.digits ++ c :: s).dropWhile fun c => c ≠ 'x' ∧ c ≠ 'X').tail = s := by
    intro m c s hc
    rw [dropWhile_append_of_pos, dropWhile_cons_of_neg]
    · rfl
    · simpa using fun hx => hc.resolve_left hx
    · intro d hd
      have hdigit := m.isDigit d hd
      simpa using ⟨isDigit_ne hdigit (by decide), isDigit_ne hdigit (by decide)⟩
  unfold readIter flags n text repsText
  match hreps : t.reps with
  | none => rfl
  | some (m, upper) =>
    have hfits := fits_of_le (h.numerals_le m (by simp [numerals, hreps]))
    have hscan : ∀ c s, c.isDigit = false →
        scan [.d, .lit c] (m.digits ++ c :: s) = .ok [(m.value : Int)] := by
      intro c s hc
      refine scan_eq ?_
      rw [m.sscanf_d hfits (stops_cons hc s), sscanf_lit]
      rfl
    cases upper with
    | false =>
      show (do
        let iter ← (fun values : List Int => values.headD 1) <$> scan [.d, .lit 'x']
          ((m.digits ++ ['x']) ++ _)
        .ok (iter, (((m.digits ++ ['x']) ++ _).dropWhile fun c => c ≠ 'x' ∧ c ≠ 'X').tail)) = _
      rw [append_assoc, singleton_append, hscan 'x' _ (by decide), hdrop m 'x' _ (.inl rfl)]
      rfl
    | true =>
      show (do
        let iter ← (fun values : List Int => values.headD 1) <$> scan [.d, .lit 'X']
          ((m.digits ++ ['X']) ++ _)
        .ok (iter, (((m.digits ++ ['X']) ++ _).dropWhile fun c => c ≠ 'x' ∧ c ≠ 'X').tail)) = _
      rw [append_assoc, singleton_append, hscan 'X' _ (by decide), hdrop m 'X' _ (.inr rfl)]
      rfl

/-- The numbers of the range. -/
def rangeValues (t : Item) : List Int :=
  t.start.value :: t.last :: match t.range with
    | none | some (_, none) => []
    | some (_, some (stride, none)) => [(stride.value : Int)]
    | some (_, some (stride, some block)) => [(stride.value : Int), (block.value : Int)]

/-- The range of a well-formed item is read. -/
theorem Ok.readRange_text (h : t.Ok) :
    readRange t.flags (t.start.digits ++ (t.rangeText ++ t.offsText)) = .ok t.rangeValues := by
  have hoffs : Stops t.offsText := stops_offs t.offs
  have hfits (x : Numeral) (hx : x ∈ t.numerals) := fits_of_le (h.numerals_le x hx)
  have hstart := hfits t.start (by simp [numerals])
  have hscan : scan [.d] (t.start.digits ++ t.offsText) = .ok [(t.start.value : Int)] := by
    refine scan_eq ?_
    rw [t.start.sscanf_d hstart hoffs]
    rfl
  match hrange : t.range with
  | none =>
    simp only [readRange, flags, rangeValues, last, rangeText, hrange, nil_append, hscan]
    rfl
  | some (last, none) =>
    have hlast := hfits last (by simp [numerals, hrange])
    simp only [readRange, flags, rangeValues, Item.last, rangeText, hrange, cons_append]
    refine scan_eq ?_
    rw [t.start.sscanf_d_lit hstart (by decide), last.sscanf_d hlast hoffs]
    rfl
  | some (last, some (stride, none)) =>
    have hlast := hfits last (by simp [numerals, hrange])
    have hstride := hfits stride (by simp [numerals, hrange])
    simp only [readRange, flags, rangeValues, Item.last, rangeText, hrange, cons_append,
      append_assoc]
    refine scan_eq ?_
    rw [t.start.sscanf_d_lit hstart (by decide), last.sscanf_d_lit hlast (by decide),
      stride.sscanf_d hstride hoffs]
    rfl
  | some (last, some (stride, some block)) =>
    have hlast := hfits last (by simp [numerals, hrange])
    have hstride := hfits stride (by simp [numerals, hrange])
    have hblock := hfits block (by simp [numerals, hrange])
    simp only [readRange, flags, rangeValues, Item.last, rangeText, hrange, cons_append,
      append_assoc]
    refine scan_eq ?_
    rw [t.start.sscanf_d_lit hstart (by decide), last.sscanf_d_lit hlast (by decide),
      stride.sscanf_d_lit hstride (by decide), block.sscanf_d hblock hoffs]
    rfl

/-- The variables of the item after it was read. -/
def fields (t : Item) : Fields :=
  ⟨t.n, t.start.value, t.last, t.stride, t.blockUsed, ints t.offsets⟩

/-- A well-formed item is read back. -/
theorem Ok.readItem_text (h : t.Ok) : readItem t.text = .ok t.fields := by
  have hblock : ∀ b s : Nat, (if (b : Int) > s then (1 : Int) else b) =
      ((if b > s then 1 else b : Nat) : Int) := by
    intro b s
    split <;> split <;> omega
  show (scanItem true t.text {}).bind _ = _
  rw [h.scan_text]
  show (readIter t.flags t.text).bind _ = _
  rw [h.readIter_text]
  show (readRange t.flags (t.start.digits ++ (t.rangeText ++ t.offsText))).bind _ = _
  rw [h.readRange_text]
  have hplus : ints t.offsets = 0 :: t.flags.plus := by
    unfold ints offsets flags
    rw [map_cons, map_map]
    rfl
  unfold fields
  rw [hplus, blockUsed, ← hblock]
  unfold rangeValues stride block
  match t.range with
  | none => rfl
  | some (_, none) => rfl
  | some (_, some (_, none)) => rfl
  | some (_, some (_, some _)) => rfl

end Item

/-! ## The loops -/

section Loops

variable {numPes fuel : Nat}

/-- A store adds one entry. -/
theorem store_emits (v : Int) : Emits numPes (store numPes v) [v] := by
  intro map hmap
  unfold store
  rw [if_pos hmap, take_of_length_le]
  rw [length_append]
  exact hmap

/-- The loop over the offsets adds one entry for each. -/
theorem hLoop_emits {v : Int} {plusarr : List Int} (hfits : ∀ p ∈ plusarr, Fits (v + p)) :
    Emits numPes (hLoop numPes v plusarr) (plusarr.map (v + ·)) := by
  induction plusarr with
  | nil => exact .nil
  | cons p plusarr ih =>
    obtain ⟨hp, hfits⟩ := forall_mem_cons.mp hfits
    intro map hmap
    rw [hLoop, addInt_eq hp]
    exact ((store_emits (v + p)).andThen (ih hfits)) map hmap

namespace Item

variable {t : Item}

/-- The entries of one block. -/
def blockEntries (t : Item) (i : Nat) (js : List Nat) : List Nat :=
  js.flatMap fun j => if i + j ≤ t.last then t.offsets.map (i + j + ·) else []

/-- The sums of a block fit. -/
def BlockFits (t : Item) (i : Nat) : Prop :=
  (i + t.stride : Int) ≤ intMax ∧
    ∀ j < t.blockUsed, i + j ≤ t.last → ∀ o ∈ t.offsets, (i + j + o : Int) ≤ intMax

/-- The loop over a block adds the entries of its numbers. -/
theorem jLoop_emits {i : Nat} (hi : t.BlockFits i) (hstride : 1 ≤ t.stride) (j left : Nat)
    (hle : j + left ≤ t.blockUsed) :
    Emits numPes (jLoop numPes t.fields i j left)
      (ints (t.blockEntries i (List.range' j left))) := by
  induction left generalizing j with
  | zero => exact .nil
  | succ left ih =>
    have hused : t.blockUsed ≤ t.stride := by
      unfold blockUsed
      split <;> omega
    have hv : Fits ((i : Int) + (j : Int)) := ⟨by omega, by have := hi.1; omega⟩
    intro map hmap
    rw [jLoop, addInt_eq hv]
    show (if (i + j : Int) > (t.last : Int) then _ else _) = _
    by_cases hlast : (i + j : Int) > (t.last : Int)
    · -- All later entries of the block lie behind the end, too.
      have hnil : t.blockEntries i (List.range' j (left + 1)) = [] := by
        refine flatMap_eq_nil_iff.mpr fun k hk => if_neg ?_
        have := (mem_range'_1.mp hk).1
        omega
      rw [if_pos hlast, hnil]
      exact Emits.nil map hmap
    · have hfits : ∀ p ∈ t.fields.plusarr, Fits ((i : Int) + j + p) := by
        intro p hp
        obtain ⟨o, ho, rfl⟩ := mem_map.mp hp
        exact ⟨by omega, hi.2 j (by omega) (by omega) o ho⟩
      have hcons : ints (t.blockEntries i (List.range' j (left + 1))) =
          t.fields.plusarr.map ((i : Int) + j + ·) ++
            ints (t.blockEntries i (List.range' (j + 1) left)) := by
        unfold blockEntries
        rw [range'_succ, flatMap_cons, if_pos (by omega), ints_append]
        unfold fields ints
        rw [map_map, map_map]
        rfl
      rw [if_neg hlast, hcons]
      exact ((hLoop_emits hfits).andThen (ih (j + 1) (by omega))) map hmap

/-- The entries from `i` on, `count` steps of the loop. -/
theorem iLoop_emits (hstride : 1 ≤ t.stride) (count i : Nat)
    (hcount : count = if i ≤ t.last then (t.last - i) / t.stride + 1 else 0)
    (hfits : ∀ i' ∈ List.range' i count t.stride, t.BlockFits i') (hfuel : count < fuel) :
    Emits numPes (iLoop numPes t.fields fuel i)
      (ints ((List.range' i count t.stride).flatMap fun i =>
        t.blockEntries i (List.range t.blockUsed))) := by
  induction count generalizing i fuel with
  | zero =>
    obtain ⟨fuel, rfl⟩ : ∃ fuel', fuel = fuel' + 1 := ⟨fuel - 1, by omega⟩
    intro map hmap
    have hlast : ¬ ((i : Int) ≤ (t.last : Int)) := by
      intro hle
      rw [if_pos (by omega)] at hcount
      exact Nat.succ_ne_zero _ hcount.symm
    show (if (i : Int) ≤ (t.last : Int) then _ else _) = _
    rw [if_neg hlast]
    exact Emits.nil map hmap
  | succ count ih =>
    obtain ⟨fuel, rfl⟩ : ∃ fuel', fuel = fuel' + 1 := ⟨fuel - 1, by omega⟩
    have hle : i ≤ t.last := by
      by_contra hgt
      rw [if_neg hgt] at hcount
      omega
    rw [if_pos hle, Nat.add_right_cancel_iff] at hcount
    rw [range'_succ] at hfits ⊢
    obtain ⟨hi, hfits⟩ := forall_mem_cons.mp hfits
    -- One step less is left from the next `i` on.
    have hnext : count = if i + t.stride ≤ t.last then (t.last - (i + t.stride)) / t.stride + 1
        else 0 := by
      split
      next hlt =>
        have hsub : t.last - i = (t.last - (i + t.stride)) + t.stride := by omega
        rw [hcount, hsub, Nat.add_div_right _ hstride]
      next hge => rw [hcount, Nat.div_eq_of_lt (by omega)]
    have hadd : defined (addInt i t.stride) = .ok ((i + t.stride : Nat) : Int) := by
      rw [addInt_eq ⟨by omega, hi.1⟩]
      rfl
    have hblock : Emits numPes (jLoop numPes t.fields i 0 t.blockUsed)
        (ints (t.blockEntries i (List.range t.blockUsed))) := by
      rw [range_eq_range']
      exact jLoop_emits hi hstride 0 t.blockUsed (by omega)
    intro map hmap
    have hlast : (i : Int) ≤ t.fields.last := by
      show (i : Int) ≤ (t.last : Int)
      omega
    rw [flatMap_cons, ints_append, iLoop, if_pos hlast]
    have hrest : Emits numPes (fun map => (defined (addInt i t.stride)).bind fun i =>
        iLoop numPes t.fields fuel i map) (ints ((List.range' (i + t.stride) count t.stride).flatMap
          fun i => t.blockEntries i (List.range t.blockUsed))) := by
      rw [hadd]
      exact ih (i + t.stride) hnext hfits (by omega)
    exact (hblock.andThen hrest) map hmap

/-- The numbers of a well-formed item do not overflow. -/
theorem Ok.block_fits (h : t.Ok) (hn : 0 < t.n) : ∀ i ∈ t.steps, t.BlockFits i := by
  intro i hi
  refine ⟨h.steps_le hn i hi, fun j hj hle o ho => ?_⟩
  have hmem : i + j + o ∈ t.body := by
    refine mem_flatMap.mpr ⟨i, hi, mem_flatMap.mpr ⟨j, mem_range.mpr hj, ?_⟩⟩
    rw [if_pos hle]
    exact mem_map.mpr ⟨o, ho, rfl⟩
  exact_mod_cast h.body_le hn _ hmem

/-- The loop over the blocks adds the entries of the item once. -/
theorem Ok.iLoop_body (h : t.Ok) (hn : 0 < t.n) (hfuel : t.steps.length < fuel) :
    Emits numPes (iLoop numPes t.fields fuel t.fields.start) (ints t.body) := by
  have hsteps : t.steps = List.range' t.start.value
      (if t.start.value ≤ t.last then (t.last - t.start.value) / t.stride + 1 else 0) t.stride := by
    unfold steps
    split <;> rfl
  have hfits := h.block_fits hn
  unfold body
  rw [hsteps] at hfits hfuel ⊢
  rw [length_range'] at hfuel
  exact iLoop_emits h.stride_pos _ _ rfl hfits hfuel

/-- The outer loop adds them as often as the item says. -/
theorem Ok.kLoop_emits (h : t.Ok) (hfuel : t.steps.length < fuel) (k : Nat) (hk : k ≤ t.n) :
    Emits numPes (kLoop numPes t.fields fuel k) (ints (List.replicate k t.body).flatten) := by
  induction k with
  | zero => exact .nil
  | succ k ih =>
    rw [replicate_succ, flatten_cons, ints_append]
    exact (h.iLoop_body (by omega) hfuel).andThen (ih (by omega))

end Item

/-- The loop over the items writes their entries, cut off at the number of PEs. -/
theorem itemLoop_eq {items : List Item} (hok : ∀ t ∈ items, t.Ok)
    (hfuel : ∀ t ∈ items, t.steps.length < fuel) {map : List Int} (hmap : map.length ≤ numPes) :
    itemLoop numPes fuel (items.map Item.text) map =
      .ok ((map ++ ints (entries items)).take numPes) := by
  induction items generalizing map with
  | nil =>
    show Except.ok map = .ok ((map ++ []).take numPes)
    rw [append_nil, take_of_length_le hmap]
  | cons t items ih =>
    obtain ⟨ht, hok⟩ := forall_mem_cons.mp hok
    obtain ⟨htf, hfuel⟩ := forall_mem_cons.mp hfuel
    rw [map_cons, itemLoop]
    by_cases hlt : map.length < numPes
    · have hk := ht.kLoop_emits htf t.n (Nat.le_refl _) map hlt
      rw [if_pos hlt, ht.readItem_text]
      show (kLoop numPes t.fields fuel t.n map).bind _ = _
      rw [hk]
      show itemLoop numPes fuel (items.map Item.text) _ = _
      rw [ih hok hfuel (length_take_le _ _)]
      show _ = Except.ok ((map ++ ints (t.expand ++ entries items)).take numPes)
      rw [ints_append, ← append_assoc, take_append_take]
      rfl
    · rw [if_neg hlt, take_append_of_le_length (by omega), take_of_length_le hmap]

end Loops

/-! ## The whole map -/

theorem Item.comma_not_mem (t : Item) : ',' ∉ t.text := by
  have hnum : ∀ m : Numeral, ',' ∉ m.digits := fun m hm =>
    isDigit_ne (m.isDigit _ hm) (show (',').isDigit = false by decide) rfl
  have hreps : ',' ∉ t.repsText := by
    unfold repsText
    match t.reps with
    | none => exact not_mem_nil
    | some (m, false) => simpa using hnum m
    | some (m, true) => simpa using hnum m
  have hrange : ',' ∉ t.rangeText := by
    unfold rangeText
    match t.range with
    | none => exact not_mem_nil
    | some (last, none) => simpa using hnum last
    | some (last, some (stride, none)) => simpa using ⟨hnum last, hnum stride⟩
    | some (last, some (stride, some block)) =>
      simpa using ⟨hnum last, hnum stride, hnum block⟩
  have hoffs : ',' ∉ t.offsText := by
    unfold offsText
    rw [mem_flatMap]
    rintro ⟨o, -, ho⟩
    exact (mem_cons.mp ho).elim (by decide) (hnum o)
  unfold text
  simp only [mem_append, not_or]
  exact ⟨hreps, hnum t.start, hrange, hoffs⟩

theorem Item.text_ne_nil (t : Item) : t.text ≠ [] := by
  unfold text
  have hstart := t.start.nonempty
  simp [hstart]

/-- The map is split into its items. -/
theorem strtok_mapText (items : List Item) : strtok (mapText items) = items.map Item.text := by
  unfold strtok mapText
  cases items with
  | nil => rfl
  | cons t items =>
    rw [splitOn_intercalate, filter_eq_self]
    · intro s hs
      obtain ⟨t', -, rfl⟩ := mem_map.mp hs
      exact decide_eq_true t'.text_ne_nil
    · intro s hs
      obtain ⟨t', -, rfl⟩ := mem_map.mp hs
      exact t'.comma_not_mem
    · exact cons_ne_nil _ _

/-- A number of turns that is enough for all items. -/
theorem exists_fuel (items : List Item) : ∃ fuel₀, ∀ t ∈ items, t.steps.length < fuel₀ := by
  induction items with
  | nil => exact ⟨0, fun t ht => absurd ht not_mem_nil⟩
  | cons t items ih =>
    obtain ⟨fuel₀, h⟩ := ih
    refine ⟨fuel₀ + t.steps.length + 1, fun t' ht' => ?_⟩
    rcases mem_cons.mp ht' with rfl | ht'
    · omega
    · have := h t' ht'
      omega

/-- The call returns the entry that the map denotes for the PE. -/
def Follows (items : List Item) (numPes pe : Nat) : Prop :=
  ∃ fuel₀, ∀ fuel ≥ fuel₀, ∃ v, (entries items)[pe % (entries items).length]? = some v ∧
    searchPemap fuel numPes (mapText items) pe = .ok (v : Int)

/-- The search finds the entry of the PE, counted modulo the number of entries. -/
theorem searchPemap_eq {items : List Item} (hok : ∀ t ∈ items, t.Ok) {numPes pe fuel : Nat}
    (hpe : pe < numPes) (hfuel : ∀ t ∈ items, t.steps.length < fuel) :
    searchPemap fuel numPes (mapText items) pe =
      match (entries items)[pe % (entries items).length]? with
      | none => .error .divisionByZero
      | some v => .ok (v : Int) := by
  unfold searchPemap
  rw [strtok_mapText, itemLoop_eq hok hfuel (Nat.zero_le _), nil_append]
  show (if ((ints (entries items)).take numPes).length = 0 then _ else _) = _
  have hlen : ((ints (entries items)).take numPes).length = min numPes (entries items).length := by
    rw [length_take, ints, length_map]
  rw [hlen]
  by_cases hnil : entries items = []
  · rw [hnil]
    simp
  · have hpos : 0 < (entries items).length := length_pos_of_ne_nil hnil
    have hmod : pe % min numPes (entries items).length = pe % (entries items).length := by
      rcases Nat.le_total numPes (entries items).length with hle | hge
      · rw [Nat.min_eq_left hle, Nat.mod_eq_of_lt hpe, Nat.mod_eq_of_lt (by omega)]
      · rw [Nat.min_eq_right hge]
    have hlt : pe % (entries items).length < (entries items).length := Nat.mod_lt _ hpos
    have hltPes : pe % (entries items).length < numPes :=
      Nat.lt_of_le_of_lt (Nat.mod_le _ _) hpe
    rw [if_neg (by omega), hmod, getElem?_take_of_lt hltPes, ints, getElem?_map,
      getElem?_eq_getElem hlt]
    rfl

/-- A map denotes a list of entries. For every PE the call returns the entry with the number of the
PE, modulo the number of entries, if and only if there is one; otherwise it divides by zero. -/
theorem search_pemap_follows_iff {items : List Item} (hok : ∀ t ∈ items, t.Ok) {numPes pe : Nat}
    (hpe : pe < numPes) :
    (Follows items numPes pe ↔ entries items ≠ []) ∧
    (entries items = [] → ∃ fuel₀, ∀ fuel ≥ fuel₀,
      searchPemap fuel numPes (mapText items) pe = .error .divisionByZero) := by
  obtain ⟨fuel₀, hfuel₀⟩ := exists_fuel items
  have hcall : ∀ fuel ≥ fuel₀, searchPemap fuel numPes (mapText items) pe =
      match (entries items)[pe % (entries items).length]? with
      | none => .error .divisionByZero
      | some v => .ok (v : Int) :=
    fun fuel hfuel => searchPemap_eq hok hpe fun t ht => Nat.lt_of_lt_of_le (hfuel₀ t ht) hfuel
  refine ⟨⟨fun hfollows hnil => ?_, fun hne => ⟨fuel₀, fun fuel hfuel => ?_⟩⟩,
    fun hnil => ⟨fuel₀, fun fuel hfuel => ?_⟩⟩
  · obtain ⟨fuel₁, hall⟩ := hfollows
    obtain ⟨v, hv, -⟩ := hall fuel₁ (Nat.le_refl _)
    rw [hnil] at hv
    cases hv
  · have hlt : pe % (entries items).length < (entries items).length :=
      Nat.mod_lt _ (length_pos_of_ne_nil hne)
    refine ⟨_, getElem?_eq_getElem hlt, ?_⟩
    rw [hcall fuel hfuel, getElem?_eq_getElem hlt]
  · rw [hcall fuel hfuel, hnil]
    rfl

/-- The map `2x0-7:4.2+8` on ten PEs, for PE 5. -/
theorem block_map_followed : ∃ t : Item, t.Ok ∧
    mapText [t] = ['2', 'x', '0', '-', '7', ':', '4', '.', '2', '+', '8'] ∧
    entries [t] = [0, 8, 1, 9, 4, 12, 5, 13, 0, 8, 1, 9, 4, 12, 5, 13] ∧ Follows [t] 10 5 := by
  let num : (c : Char) → c.isDigit = true → Numeral := fun c h =>
    ⟨[c], cons_ne_nil _ _, by simpa using h⟩
  let t : Item := ⟨some (num '2' rfl, false), num '0' rfl,
    some (num '7' rfl, some (num '4' rfl, some (num '2' rfl))), [num '8' rfl]⟩
  have hok : t.Ok := ⟨by decide, by decide, by decide, by decide, by decide⟩
  have hok' : ∀ t' ∈ [t], t'.Ok := fun t' ht' => mem_singleton.mp ht' ▸ hok
  exact ⟨t, hok, rfl, by decide, (search_pemap_follows_iff hok' (by decide)).1.mpr (by decide)⟩

/-- The map `5-3` has no entries. -/
theorem map_without_entries : ∃ t : Item, t.Ok ∧ mapText [t] = ['5', '-', '3'] ∧
    entries [t] = [] ∧
    ∀ fuel > 0, searchPemap fuel 4 (mapText [t]) 0 = .error .divisionByZero := by
  let num : (c : Char) → c.isDigit = true → Numeral := fun c h =>
    ⟨[c], cons_ne_nil _ _, by simpa using h⟩
  let t : Item := ⟨none, num '5' rfl, some (num '3' rfl, none), []⟩
  have hok : t.Ok := ⟨by decide, by decide, by decide, by decide, by decide⟩
  have hok' : ∀ t' ∈ [t], t'.Ok := fun t' ht' => mem_singleton.mp ht' ▸ hok
  refine ⟨t, hok, rfl, rfl, fun fuel hfuel => ?_⟩
  exact searchPemap_eq hok' (by decide) fun t' ht' => mem_singleton.mp ht' ▸ hfuel

end Reconverse.CpuAffinity
