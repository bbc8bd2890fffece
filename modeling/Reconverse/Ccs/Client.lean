import Reconverse.Lib.Bytes
import Reconverse.Lib.CInt

/-!
# The node table of a CCS client

The reply of `ccs_getinfo` is a table of 4-byte numbers, most significant byte first: the number of
nodes and the number of PEs of each. `parseInfo` of `ccs-client.cpp` reads it. `CcsNodeFirst` adds
up the size of one and the same node, so that its result is right only if all nodes have one size.
An `int` that overflows has no result.
-/

namespace Reconverse.Ccs

open Lib.Bytes Lib.CInt List

/-- `ChMessageInt_new`. -/
def chMessageIntNew (v : Int) : List UInt8 := (encode 4 (unsigned 32 v).toNat).reverse

/-- `ChMessageInt` of the next entry of a table, with the rest of the table. -/
def chMessageInt (d : List UInt8) : Option (Int × List UInt8) :=
  if 4 ≤ d.length then some (int (decode (d.take 4).reverse), d.drop 4) else none

/-- `ccs_getinfo`. -/
def ccsGetinfo (sizes : List Int) : List UInt8 :=
  chMessageIntNew sizes.length ++ sizes.flatMap chMessageIntNew

/-- `CcsServer`. -/
structure CcsServer where
  numNodes : Int
  numProcs : List Int
  numPes : Int
  deriving DecidableEq, Repr

/-- The loop of `parseInfo`, which returns the entries it reads and `numPes`. -/
def readProcs : (n : Nat) → (numPes : Int) → List UInt8 → Option (List Int × Int)
  | 0, numPes, _ => some ([], numPes)
  | n + 1, numPes, d =>
    (chMessageInt d).bind fun (procs, d) =>
    (addInt numPes procs).bind fun numPes =>
    (readProcs n numPes d).map fun (rest, numPes) => (procs :: rest, numPes)

def parseInfo (data : List UInt8) : Option CcsServer :=
  (chMessageInt data).bind fun (numNodes, d) =>
  (readProcs numNodes.toNat 0 d).map fun (numProcs, numPes) => ⟨numNodes, numProcs, numPes⟩

def ccsNodeFirst (svr : CcsServer) (node : Nat) : Option Int :=
  (List.range node).foldlM (fun retval _ => svr.numProcs[node]?.bind (addInt retval)) 0

def ccsNodeSize (svr : CcsServer) (node : Nat) : Option Int := svr.numProcs[node]?

/-- The numbers of PEs, and the first PE of every node as the number of PEs before it. -/
def Matches (svr : CcsServer) (sizes : List Int) : Prop :=
  svr.numNodes = sizes.length ∧ svr.numPes = sizes.sum ∧ ∀ n < sizes.length,
    ccsNodeSize svr n = sizes[n]? ∧ ccsNodeFirst svr n = some (sizes.take n).sum

/-- An `int` that was written is read back, and the rest of the bytes is left. -/
theorem ch_message_int_new {v : Int} (h : Fits v) (d : List UInt8) :
    chMessageInt (chMessageIntNew v ++ d) = some (v, d) := by
  have hlen : (chMessageIntNew v).length = 4 := by
    rw [chMessageIntNew, length_reverse, length_encode]
  have hint : int (((unsigned 32 v).toNat % 256 ^ 4 : Nat) : Int) = v := by
    unfold Fits intMax at h
    unfold unsigned
    rw [int_eq]
    omega
  rw [chMessageInt, if_pos (by rw [length_append]; omega), take_left' hlen, drop_left' hlen,
    chMessageIntNew, reverse_reverse, decode_encode, hint]

/-- The sizes are read back with their sum, unless the sum overflows. -/
theorem read_procs_eq {sizes : List Int} (hsizes : ∀ x ∈ sizes, 0 ≤ x ∧ Fits x) {k : Int}
    (hk : 0 ≤ k ∧ Fits k) :
    readProcs sizes.length k (sizes.flatMap chMessageIntNew) =
      if Fits (k + sizes.sum) then some (sizes, k + sizes.sum) else none := by
  induction sizes generalizing k with
  | nil => rw [sum_nil, Int.add_zero, if_pos hk.2]; rfl
  | cons x sizes ih =>
    obtain ⟨⟨hx, hfits⟩, hrest⟩ := forall_mem_cons.mp hsizes
    rw [length_cons, flatMap_cons, readProcs, ch_message_int_new hfits, sum_cons, ← Int.add_assoc]
    simp only [Option.bind_some, addInt]
    split
    · rename_i hsum
      rw [Option.bind_some, ih hrest ⟨by omega, hsum⟩]
      split <;> rfl
    · rename_i hsum
      have hnonneg : 0 ≤ sizes.sum := sum_nonneg fun y hy => (hrest y hy).1
      rw [if_neg (by unfold Fits at hsum ⊢; omega)]
      rfl

/-- `CcsNodeFirst` multiplies the size of the node itself by its number. -/
theorem node_first_eq (svr : CcsServer) {n : Nat} {x : Int} (hx : svr.numProcs[n]? = some x)
    (hpos : 0 ≤ x) : ccsNodeFirst svr n = if Fits (n * x) then some (n * x) else none := by
  unfold ccsNodeFirst
  rw [hx]
  generalize n = k
  induction k with
  | zero => rw [Nat.cast_zero, Int.zero_mul]; rfl
  | succ k ih =>
    have hk : 0 ≤ (k : Int) * x := Int.mul_nonneg (Int.natCast_nonneg k) hpos
    rw [range_succ, foldlM_append, ih, Nat.cast_succ, Int.add_mul]
    split
    · simp [addInt]
    · rename_i hfits
      rw [if_neg (by unfold Fits at hfits ⊢; omega)]
      rfl

/-- If `n` times the size of every node `n` is the number of PEs before it, all sizes are equal. -/
theorem take_eq_replicate {sizes : List Int} {x : Int} (hx : sizes.head? = some x)
    (h : ∀ n (hn : n < sizes.length), n * sizes[n] = (sizes.take n).sum) (n : Nat)
    (hn : n ≤ sizes.length) : sizes.take n = List.replicate n x := by
  induction n with
  | zero => rfl
  | succ n ih =>
    have hget : sizes[n] = x := by
      rcases Nat.eq_zero_or_pos n with rfl | hpos
      · rwa [head?_eq_getElem?, getElem?_eq_getElem hn, Option.some_inj] at hx
      · have hmul := h n hn
        rw [ih (Nat.le_of_succ_le hn), sum_replicate] at hmul
        exact Int.eq_of_mul_eq_mul_left (by omega) hmul
    rw [take_succ_eq_append_getElem hn, ih (Nat.le_of_succ_le hn), hget, replicate_succ']

/-- For every list of numbers of PEs, the table of the client is that of the server exactly if the
nodes have one size and the number of all PEs is an `int`. -/
theorem node_table_matches_iff (sizes : List Int) (hlen : sizes.length < 2 ^ 31)
    (hsizes : ∀ x ∈ sizes, 0 ≤ x ∧ Fits x) :
    (∃ svr, parseInfo (ccsGetinfo sizes) = some svr ∧ Matches svr sizes) ↔
      (∀ x ∈ sizes, ∀ y ∈ sizes, x = y) ∧ Fits sizes.sum := by
  have hcount : Fits sizes.length := ⟨by omega, by unfold intMax; omega⟩
  have hinfo : parseInfo (ccsGetinfo sizes) = if Fits sizes.sum then
      some ⟨sizes.length, sizes, sizes.sum⟩ else none := by
    rw [parseInfo, ccsGetinfo, ch_message_int_new hcount]
    show Option.map _ (readProcs sizes.length 0 (sizes.flatMap chMessageIntNew)) = _
    rw [read_procs_eq hsizes ⟨Int.le_refl 0, by decide⟩, Int.zero_add]
    split <;> rfl
  have hfirst (n : Nat) (hn : n < sizes.length) :=
    node_first_eq ⟨sizes.length, sizes, sizes.sum⟩ (getElem?_eq_getElem hn)
      (hsizes _ (getElem_mem hn)).1
  rw [hinfo]
  constructor
  · rintro ⟨svr, hsvr, -, -, hnodes⟩
    obtain ⟨hfits, hsvr⟩ := (Option.ite_none_right_eq_some ..).mp hsvr
    cases hsvr
    cases hhead : sizes.head? with
    | none => rw [head?_eq_none_iff.mp hhead] at hfits ⊢; exact ⟨nofun, hfits⟩
    | some x =>
      have hall := take_eq_replicate hhead (fun n hn => ?_) sizes.length (Nat.le_refl _)
      · rw [take_length] at hall
        refine ⟨fun y hy z hz => ?_, hfits⟩
        rw [hall] at hy hz
        rw [eq_of_mem_replicate hy, eq_of_mem_replicate hz]
      · have hn' := (hnodes n hn).2
        rw [hfirst n hn] at hn'
        exact Option.some.inj ((Option.ite_none_right_eq_some ..).mp hn').2
  · rintro ⟨heq, hfits⟩
    refine ⟨_, if_pos hfits, rfl, rfl, fun n hn => ⟨rfl, ?_⟩⟩
    obtain ⟨hx, -⟩ := hsizes _ (getElem_mem hn)
    have hall : sizes = List.replicate sizes.length sizes[n] :=
      eq_replicate_iff.mpr ⟨rfl, fun y hy => heq y hy _ (getElem_mem hn)⟩
    rw [hfirst n hn]
    generalize sizes[n] = x at hall hx
    generalize sizes.length = k at hall hn
    subst hall
    rw [sum_replicate] at hfits
    rw [take_replicate, Nat.min_eq_left (Nat.le_of_lt hn), sum_replicate]
    have hle : (n : Int) * x ≤ k * x := Int.mul_le_mul_of_nonneg_right (by omega) hx
    have hpos : 0 ≤ (n : Int) * x := Int.mul_nonneg (Int.natCast_nonneg n) hx
    exact if_pos ⟨by omega, Int.le_trans hle hfits.2⟩

/-- Three nodes of two PEs. -/
theorem equal_nodes_match : ∃ svr, parseInfo (ccsGetinfo [2, 2, 2]) = some svr ∧
    Matches svr [2, 2, 2] :=
  (node_table_matches_iff _ (by decide) (by decide)).mpr (by decide)

/-- Nodes of one and two PEs: `CcsNodeFirst` of the second is 2. -/
theorem second_node_misplaced :
    ((parseInfo (ccsGetinfo [1, 2])).bind fun svr => ccsNodeFirst svr 1) = some 2 := by
  decide +kernel

end Reconverse.Ccs
