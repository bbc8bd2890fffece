import Reconverse.Lib.Blocks
import Reconverse.Partition.Model

/-!
# Local and global numbers

The partitions of a run are blocks in a row: partition `p` has the global numbers from the sum of
the sizes before it on. All three types compute this, in their own way, and so do the translations
(`PartitionInfo.Valid`). So the local numbers name each process once if and only if the sizes add up
to the number of processes. With equal sizes they do, but nothing checks the sizes that the user
gives (`numbered_iff`).
-/

namespace Reconverse.Partition

open Function (update_of_ne update_self)
open Option (bind_eq_some_iff)

open Lib List Blocks

variable {n : Nat} {starts : Nat → Int}

namespace PartitionInfo

/-- The places in the partitions are the global numbers of the processes and of the PEs. -/
structure Numbers (info : PartitionInfo) (numNodes nodeSize : Nat) : Prop where
  nodes : Set.BijOn (fun place : Nat × Int => info.nodeLToGTranslate place.2 place.1)
    {place | place.1 < info.numPartitions ∧ 0 ≤ place.2 ∧ place.2 < info.partitionSize place.1}
    (Set.Ico 0 (numNodes : Int))
  pes : Set.BijOn
    (fun place : Nat × Int =>
      info.peLToGTranslate nodeSize (numNodes * nodeSize) place.2 place.1)
    {place | place.1 < info.numPartitions ∧ 0 ≤ place.2 ∧
      place.2 < info.partitionSize place.1 * nodeSize}
    (Set.Ico 0 (numNodes * nodeSize : Int))
  node_of_pe : ∀ p < info.numPartitions, ∀ pe, 0 ≤ pe → pe < info.partitionSize p * nodeSize →
    cmiNodeOf nodeSize (info.peLToGTranslate nodeSize (numNodes * nodeSize) pe p) =
      info.nodeLToGTranslate (cmiNodeOf nodeSize pe) p

/-- The process `myNode` has the local number `node` in its partition. -/
structure Places (info : PartitionInfo) (myNode : Nat) (node : Int) : Prop where
  partition_lt : info.myPartition < info.numPartitions
  nonneg : 0 ≤ node
  lt_size : node < info.partitionSize info.myPartition
  translate : info.nodeLToGTranslate node info.myPartition = myNode

/-- Two processes agree on the partitions. -/
structure SameTable (info info' : PartitionInfo) : Prop where
  type_eq : info.type = info'.type
  num_eq : info.numPartitions = info'.numPartitions
  size_eq : ∀ p < info.numPartitions, info.partitionSize p = info'.partitionSize p
  prefix_eq : ∀ p < info.numPartitions, info.partitionPrefix p = info'.partitionPrefix p

end PartitionInfo

/-- What every process of a run gets from `create_partition_map` is a numbering of the run. -/
structure Numbered (opts : Options) (numNodes nodeSize : Nat) : Prop where
  numbers : ∀ g < numNodes, ∀ info node, createPartitionMap opts numNodes g = some (info, node) →
    info.Numbers numNodes nodeSize ∧ info.Places g node
  same_table : ∀ g < numNodes, ∀ g' < numNodes, ∀ info node info' node',
    createPartitionMap opts numNodes g = some (info, node) →
    createPartitionMap opts numNodes g' = some (info', node') → info.SameTable info'

/-! ## Blocks -/

/-- What the three types have in common: the partitions are blocks in a row. -/
structure PartitionInfo.Valid (info : PartitionInfo) (myNode : Nat) : Prop where
  type_ne : info.type ≠ .singleton
  size_pos : ∀ p < info.numPartitions, 0 < info.partitionSize p
  prefix_eq : ∀ p < info.numPartitions,
    info.partitionPrefix p = Blocks.start info.partitionSize p
  translate : ∀ p < info.numPartitions, ∀ node, 0 ≤ node → node < info.partitionSize p →
    info.nodeLToGTranslate node p = Blocks.start info.partitionSize p + node
  partition_lt : info.myPartition < info.numPartitions
  found : (myNode : Int) < Blocks.start info.partitionSize info.numPartitions →
    Blocks.start info.partitionSize info.myPartition ≤ myNode ∧
      myNode < Blocks.start info.partitionSize info.myPartition +
        info.partitionSize info.myPartition

/-- Prefixes that are computed one from the other. -/
theorem start_of_step (sizes : Nat → Int) (hzero : starts 0 = 0)
    (hstep : ∀ p, p + 1 < n → starts (p + 1) = starts p + sizes p) :
    ∀ p < n, starts p = Blocks.start sizes p := by
  intro p
  induction p with
  | zero => exact fun _ => hzero
  | succ p ih =>
    intro hp
    rw [hstep p hp, ih (Nat.lt_of_succ_lt hp), start_succ]

theorem start_congr {sizes sizes' : Nat → Int} (h : ∀ p < n, sizes p = sizes' p) :
    Blocks.start sizes n = Blocks.start sizes' n :=
  Finset.sum_congr rfl fun p hp => h p (Finset.mem_range.mp hp)

variable {sizes : Nat → Int} {a b c : Int} {size : Int} {p : Nat}

theorem start_const (h : ∀ p < n, sizes p = size) : Blocks.start sizes n = n * size := by
  rw [start_congr h, start, Finset.sum_const, Finset.card_range, nsmul_eq_mul]

namespace PartitionInfo.Valid

variable {info : PartitionInfo} {myNode : Nat}

section

variable (h : info.Valid myNode) {nodeSize : Nat}

include h

/-- The places in the partitions, as numbers of processes. -/
theorem nodes :
    Set.BijOn (fun place : Nat × Int => info.nodeLToGTranslate place.2 place.1)
      {place | place.1 < info.numPartitions ∧ 0 ≤ place.2 ∧ place.2 < info.partitionSize place.1}
      (Set.Ico 0 (Blocks.start info.partitionSize info.numPartitions)) := by
  have hblocks := bijOn fun p hp => Int.le_of_lt (h.size_pos p hp)
  refine hblocks.congr fun place hplace => ?_
  exact (h.translate _ hplace.1 _ hplace.2.1 hplace.2.2).symm

/-- A local PE and its process. -/
theorem pe_translate (hsize : 0 < nodeSize) (numPes : Nat)
    (hp : p < info.numPartitions) {pe : Int} (hnonneg : 0 ≤ pe)
    (hlt : pe < info.partitionSize p * nodeSize) :
    info.peLToGTranslate nodeSize numPes pe p =
      Blocks.start info.partitionSize p * nodeSize + pe ∧
    info.nodeLToGTranslate (cmiNodeOf nodeSize pe) p =
      Blocks.start info.partitionSize p + cmiNodeOf nodeSize pe := by
  have hnode : info.nodeLToGTranslate (cmiNodeOf nodeSize pe) p =
      start info.partitionSize p + cmiNodeOf nodeSize pe := by
    refine h.translate p hp _ (Int.tdiv_nonneg hnonneg (Int.natCast_nonneg _)) ?_
    rw [cmiNodeOf, Int.tdiv_eq_ediv_of_nonneg hnonneg]
    exact Int.ediv_lt_of_lt_mul (Int.natCast_pos.mpr hsize) hlt
  refine ⟨?_, hnode⟩
  rw [peLToGTranslate, if_neg h.type_ne, if_pos hlt, hnode, Int.add_mul, Int.add_assoc, cmiNodeOf,
    cmiRankOf, Int.tdiv_mul_add_tmod]

/-- The places in the partitions, as numbers of PEs. -/
theorem pes (hsize : 0 < nodeSize) (numPes : Nat) :
    Set.BijOn (fun place : Nat × Int => info.peLToGTranslate nodeSize numPes place.2 place.1)
      {place | place.1 < info.numPartitions ∧ 0 ≤ place.2 ∧
        place.2 < info.partitionSize place.1 * nodeSize}
      (Set.Ico 0 (Blocks.start info.partitionSize info.numPartitions * nodeSize)) := by
  have hmul (p : Nat) : start (fun p => info.partitionSize p * nodeSize) p =
      start info.partitionSize p * nodeSize := (Finset.sum_mul ..).symm
  have hblocks := bijOn (f := fun p => info.partitionSize p * nodeSize)
    fun p hp =>
      Int.mul_nonneg (Int.le_of_lt (h.size_pos p hp)) (Int.natCast_nonneg _)
  rw [hmul] at hblocks
  refine hblocks.congr fun place hplace => ?_
  show start _ place.1 + place.2 = _
  rw [(h.pe_translate hsize numPes hplace.1 hplace.2.1 hplace.2.2).1, hmul]

/-- The partitions number the run if and only if their sizes add up. -/
theorem numbers_iff {numNodes nodeSize : Nat} (hnodes : 0 < numNodes) (hsize : 0 < nodeSize) :
    info.Numbers numNodes nodeSize ↔
      Blocks.start info.partitionSize info.numPartitions = numNodes := by
  constructor
  · intro hnumbers
    have hrange : Set.Ico 0 (start info.partitionSize info.numPartitions) =
        Set.Ico 0 (numNodes : Int) := h.nodes.image_eq.symm.trans hnumbers.nodes.image_eq
    -- Both intervals have a last number, since there is a process and so a place.
    have hlast : (numNodes - 1 : Int) ∈ Set.Ico 0 (numNodes : Int) := ⟨by omega, by omega⟩
    rw [← hrange] at hlast
    have hpos := Int.lt_of_le_of_lt hlast.1 hlast.2
    have hlast' : start info.partitionSize info.numPartitions - 1 ∈
        Set.Ico 0 (start info.partitionSize info.numPartitions) := ⟨by omega, by omega⟩
    rw [hrange] at hlast'
    have := hlast.2
    have := hlast'.2
    omega
  · intro hsum
    refine ⟨hsum ▸ h.nodes, ?_, ?_⟩
    · have hpes := h.pes hsize (numNodes * nodeSize)
      rwa [hsum] at hpes
    · intro p hp pe hnonneg hlt
      obtain ⟨hpe, hnode⟩ := h.pe_translate hsize (numNodes * nodeSize) hp hnonneg hlt
      have hstart : 0 ≤ start info.partitionSize p := by
        have := start_mono (fun p hp => Int.le_of_lt (h.size_pos p hp)) (Nat.zero_le p)
          (le_of_lt hp)
        rwa [start_zero] at this
      have hne : (nodeSize : Int) ≠ 0 := by omega
      rw [hpe, hnode, cmiNodeOf, cmiNodeOf, Int.tdiv_eq_ediv_of_nonneg hnonneg,
        Int.tdiv_eq_ediv_of_nonneg (Int.add_nonneg
          (Int.mul_nonneg hstart (Int.natCast_nonneg _)) hnonneg),
        Int.add_comm, Int.add_mul_ediv_right _ _ hne, Int.add_comm]

/-- A process of the row has a place. -/
theorem places (hlt : (myNode : Int) < Blocks.start info.partitionSize info.numPartitions) :
    info.Places myNode (myNode - info.partitionPrefix info.myPartition) := by
  obtain ⟨hle, hend⟩ := h.found hlt
  have hprefix := h.prefix_eq _ h.partition_lt
  refine ⟨h.partition_lt, by omega, by omega, ?_⟩
  rw [h.translate _ h.partition_lt _ (by omega) (by omega)]
  omega

end

end PartitionInfo.Valid

/-! ## Equal sizes -/

/-- The loop for partitions of the same size. -/
theorem copy_sizes (t : Table) (first n : Nat) (hfirst : 0 < first) :
    let t' := (List.range' first n).foldl Table.copySize t
    (∀ p < first, t'.partitionSize p = t.partitionSize p ∧
      t'.partitionPrefix p = t.partitionPrefix p) ∧
    ∀ p, first ≤ p → p < first + n → t'.partitionSize p = t.partitionSize (first - 1) ∧
      t'.partitionPrefix p = t'.partitionPrefix (p - 1) + t'.partitionSize (p - 1) := by
  induction n with
  | zero => exact ⟨fun p _ => ⟨rfl, rfl⟩, fun p hle hlt => absurd hlt (by omega)⟩
  | succ n ih =>
    obtain ⟨hbelow, habove⟩ := ih
    rw [range'_concat, foldl_append, one_mul]
    generalize (List.range' first n).foldl Table.copySize t = t₁ at hbelow habove
    -- The last round writes at `first + n` only.
    have hold {p : Nat} (hp : p < first + n) :
        (t₁.copySize (first + n)).partitionSize p = t₁.partitionSize p ∧
        (t₁.copySize (first + n)).partitionPrefix p = t₁.partitionPrefix p :=
      ⟨update_of_ne (by omega) .., update_of_ne (by omega) ..⟩
    have hlast : t₁.partitionSize (first + n - 1) = t.partitionSize (first - 1) := by
      cases n with
      | zero => exact (hbelow (first - 1) (by omega)).1
      | succ n => exact (habove (first + (n + 1) - 1) (by omega) (by omega)).1
    constructor
    · intro p hp
      obtain ⟨hsize, hprefix⟩ := hold (p := p) (by omega)
      obtain ⟨hsize₁, hprefix₁⟩ := hbelow p hp
      exact ⟨hsize.trans hsize₁, hprefix.trans hprefix₁⟩
    · intro p hle hlt
      obtain ⟨hsize', hprefix'⟩ := hold (p := p - 1) (by omega)
      rcases lt_or_ge p (first + n) with hp | hp
      · obtain ⟨hsize, hprefix⟩ := hold hp
        obtain ⟨hsize₁, hprefix₁⟩ := habove p hle hp
        exact ⟨hsize.trans hsize₁, by
          rw [foldl_cons, foldl_nil, hprefix, hprefix', hsize', hprefix₁]⟩
      · obtain rfl : p = first + n := by omega
        rw [foldl_cons, foldl_nil, hprefix', hsize', ← hlast]
        exact ⟨update_self .., update_self ..⟩

theorem int_div_eq_some : intDiv a b = some c ↔ b ≠ 0 ∧ a.tdiv b = c := by
  rw [intDiv]
  split
  · exact ⟨nofun, fun h => absurd (by assumption) h.1⟩
  · exact ⟨fun h => ⟨by assumption, Option.some.inj h⟩, fun h => congrArg some h.2⟩

theorem int_mod_eq_some : intMod a b = some c ↔ b ≠ 0 ∧ a.tmod b = c := by
  rw [intMod]
  split
  · exact ⟨nofun, fun h => absurd (by assumption) h.1⟩
  · exact ⟨fun h => ⟨by assumption, Option.some.inj h⟩, fun h => congrArg some h.2⟩

theorem guard_bind_eq_some {α : Type} {c : Prop} [Decidable c] {x : Option α} {a : α} :
    (do guard c; x) = some a ↔ c ∧ x = some a := by
  by_cases hc : c
  · simp [guard, hc]
  · simp [guard, hc]

/-- A division that has no rest. -/
theorem mul_div_of_mod_eq_zero (hmod : a.tmod b = 0) (hdiv : a.tdiv b = c) : b * c = a := by
  have := Int.mul_tdiv_add_tmod a b
  rw [hmod, hdiv, Int.add_zero] at this
  exact this

/-- The block of a number among blocks of one size. -/
theorem mul_div_le {a b : Int} (ha : 0 ≤ a) (hb : 0 < b) :
    0 ≤ a.tdiv b ∧ a.tdiv b * b ≤ a ∧ a < a.tdiv b * b + b := by
  rw [Int.tdiv_eq_ediv_of_nonneg ha]
  have hsplit := Int.ediv_mul_add_emod a b
  have := Int.emod_nonneg a (Int.ne_of_gt hb)
  have := Int.emod_lt_of_pos a hb
  exact ⟨Int.ediv_nonneg ha (Int.le_of_lt hb), by omega, by omega⟩

variable {info : PartitionInfo} {numPartitions numNodes myNode : Nat} {opts : Options}

/-- `PARTITION_DEFAULT`: all partitions are of one size. -/
theorem default_map_valid
    (h : defaultMap numPartitions numNodes myNode = some info) (hnp : 0 < numPartitions)
    (hnode : myNode < numNodes) :
    info.Valid myNode ∧ info.type = .default ∧ info.numPartitions = numPartitions ∧
      (∀ p < numPartitions, info.partitionSize p = (numNodes : Int).tdiv numPartitions) ∧
      Blocks.start info.partitionSize numPartitions = numNodes := by
  obtain ⟨rest, hmod, hguard⟩ := bind_eq_some_iff.mp h
  obtain ⟨rfl, hbind⟩ := guard_bind_eq_some.mp hguard
  obtain ⟨size, hdiv, hbind⟩ := bind_eq_some_iff.mp hbind
  obtain ⟨myPartition, hmy, hinfo⟩ := bind_eq_some_iff.mp hbind
  have hsize := (int_div_eq_some.mp hdiv).2
  have hmul := mul_div_of_mod_eq_zero (int_mod_eq_some.mp hmod).2 hsize
  have hpos : 0 < size := by
    by_contra hle
    have := mul_nonpos_of_nonneg_of_nonpos (Int.natCast_nonneg numPartitions) (not_lt.mp hle)
    omega
  obtain ⟨hbelow, habove⟩ := copy_sizes { partitionSize := Function.update (fun _ => 0) 0 size
                                          partitionPrefix := fun _ => 0 } 1 (numPartitions - 1)
    one_pos
  generalize (List.range' 1 (numPartitions - 1)).foldl Table.copySize _ = t
    at hbelow habove hmy hinfo
  cases hinfo
  have hsizes : ∀ p < numPartitions, t.partitionSize p = size := by
    intro p hp
    cases p with
    | zero => exact (hbelow 0 one_pos).1
    | succ p => exact (habove (p + 1) (by omega) (by omega)).1
  have hstarts := start_of_step (n := numPartitions) _ (hbelow 0 one_pos).2
    fun p hp => (habove (p + 1) (by omega) (by omega)).2
  have hstart {p : Nat} (hp : p ≤ numPartitions) : start t.partitionSize p = p * size :=
    start_const fun q hq => hsizes q (lt_of_lt_of_le hq hp)
  -- The partition of the process, as a quotient.
  rw [hsizes 0 hnp, int_div_eq_some] at hmy
  obtain ⟨hnonneg, hle, hlt⟩ := mul_div_le (Int.natCast_nonneg myNode) hpos
  rw [hmy.2] at hnonneg hle hlt
  have hcast : ((myPartition.toNat : Nat) : Int) = myPartition := Int.toNat_of_nonneg hnonneg
  have hpart : myPartition.toNat < numPartitions := by
    have : myPartition < numPartitions := by
      refine lt_of_mul_lt_mul_right ?_ (Int.le_of_lt hpos)
      omega
    omega
  refine ⟨⟨nofun, fun p hp => ?_, hstarts, fun p hp node _ _ => ?_, hpart, fun _ => ?_⟩, rfl, rfl,
    fun p hp => ?_, ?_⟩
  · exact lt_of_lt_of_eq hpos (hsizes p hp).symm
  · show p * t.partitionSize 0 + node = _
    rw [hsizes 0 hnp, hstart (le_of_lt hp)]
  · show start t.partitionSize myPartition.toNat ≤ _ ∧
      _ < start t.partitionSize myPartition.toNat + t.partitionSize myPartition.toNat
    rw [hstart (le_of_lt hpart), hsizes _ hpart, hcast]
    exact ⟨hle, hlt⟩
  · exact (hsizes p hp).trans hsize.symm
  · exact (hstart (le_refl _)).trans hmul

/-- The starts behind a first partition of one process. -/
theorem start_master (hzero : sizes 0 = 1)
    (h : ∀ p, 1 ≤ p → p < n → sizes p = size) (hpos : 1 ≤ p) (hp : p ≤ n) :
    Blocks.start sizes p = 1 + (p - 1) * size := by
  induction p with
  | zero => omega
  | succ p ih =>
    rw [start_succ]
    rcases Nat.eq_zero_or_pos p with rfl | hpos
    · rw [hzero]
      simp
    · rw [ih hpos (Nat.le_of_succ_le hp), h p hpos hp]
      push_cast
      ring

/-- `PARTITION_MASTER`: all partitions but the first are of one size. -/
theorem master_map_valid
    (h : masterMap numPartitions numNodes myNode = some info) (hnp : 0 < numPartitions)
    (hnode : myNode < numNodes) :
    info.Valid myNode ∧ info.type = .master ∧ info.numPartitions = numPartitions ∧
      (∀ p < numPartitions, info.partitionSize p =
        if p = 0 then 1 else (numNodes - 1 : Int).tdiv (numPartitions - 1)) ∧
      Blocks.start info.partitionSize numPartitions = numNodes := by
  obtain ⟨rest, hmod, hguard⟩ := bind_eq_some_iff.mp h
  obtain ⟨rfl, hbind⟩ := guard_bind_eq_some.mp hguard
  obtain ⟨size, hdiv, hbind⟩ := bind_eq_some_iff.mp hbind
  obtain ⟨quotient, hquot, hinfo⟩ := bind_eq_some_iff.mp hbind
  obtain ⟨hne, hsize⟩ := int_div_eq_some.mp hdiv
  have hmul := mul_div_of_mod_eq_zero (int_mod_eq_some.mp hmod).2 hsize
  have htwo : 2 ≤ numPartitions := by omega
  obtain ⟨hbelow, habove⟩ := copy_sizes
    { partitionSize := Function.update (Function.update (fun _ => 0) 0 1) 1 size
      partitionPrefix := Function.update (fun _ => 0) 1 1 } 2 (numPartitions - 2) two_pos
  generalize (List.range' 2 (numPartitions - 2)).foldl Table.copySize _ = t
    at hbelow habove hquot hinfo
  have hzero : t.partitionSize 0 = 1 := (hbelow 0 two_pos).1
  have hsizes : ∀ p, 1 ≤ p → p < numPartitions → t.partitionSize p = size := by
    intro p hpos hp
    rcases eq_or_lt_of_le hpos with rfl | hlt
    · exact (hbelow 1 Nat.one_lt_two).1
    · exact (habove p hlt (by omega)).1
  have hstarts := start_of_step (n := numPartitions) t.partitionSize
    (hbelow 0 two_pos).2 fun p hp => by
      cases p with
      | zero =>
        rw [hzero, (hbelow 0 two_pos).2]
        exact (hbelow 1 Nat.one_lt_two).2
      | succ p => exact (habove (p + 2) (by omega) (by omega)).2
  have hstart {p : Nat} (hpos : 1 ≤ p) (hp : p ≤ numPartitions) :
      start t.partitionSize p = 1 + (p - 1) * size :=
    start_master hzero hsizes hpos hp
  -- The quotient is only taken if there are processes for the other partitions.
  rw [hsizes 1 (le_refl 1) htwo, int_div_eq_some] at hquot
  obtain ⟨hsize_ne, hquot⟩ := hquot
  have hpos : 0 < size := by
    by_contra hle
    have := mul_neg_of_pos_of_neg (show 0 < (numPartitions - 1 : Int) by omega)
      (show size < 0 by omega)
    omega
  have hplace : ∃ p, (if myNode = 0 then 0 else 1 + quotient).toNat = p ∧ p < numPartitions ∧
      start t.partitionSize p ≤ myNode ∧
      myNode < start t.partitionSize p + t.partitionSize p := by
    rcases Nat.eq_zero_or_pos myNode with rfl | hmy
    · refine ⟨0, rfl, hnp, ?_⟩
      rw [hzero, start_zero]
      decide
    · obtain ⟨hnonneg, hle, hlt⟩ := mul_div_le (show 0 ≤ (myNode - 1 : Int) by omega) hpos
      rw [hquot] at hnonneg hle hlt
      have hpart : quotient < numPartitions - 1 := by
        refine lt_of_mul_lt_mul_right ?_ (Int.le_of_lt hpos)
        omega
      refine ⟨1 + quotient.toNat, ?_, by omega, ?_⟩
      · omega
      · have hcast : ((1 + quotient.toNat : Nat) : Int) - 1 = quotient := by omega
        rw [hstart (by omega) (by omega), hsizes _ (by omega) (by omega), hcast]
        exact ⟨by omega, by omega⟩
  obtain ⟨p, hp, hplace⟩ := hplace
  cases hinfo
  refine ⟨⟨nofun, fun q hq => ?_, hstarts, fun q hq node hnonneg hlt => ?_, ?_, fun _ => ?_⟩, rfl,
    rfl, fun q hq => ?_, ?_⟩
  · show 0 < t.partitionSize q
    rcases Nat.eq_zero_or_pos q with rfl | hq'
    · rw [hzero]
      decide
    · rwa [hsizes q hq' hq]
  · show (if q = 0 then (0 : Int) else 1 + (q - 1) * t.partitionSize 1 + node) =
      start t.partitionSize q + node
    have hlt : node < t.partitionSize q := hlt
    rcases Nat.eq_zero_or_pos q with rfl | hq'
    · rw [start_zero]
      omega
    · rw [if_neg (Nat.ne_of_gt hq'), hstart hq' (le_of_lt hq), hsizes 1 (le_refl 1) htwo]
  · exact lt_of_eq_of_lt hp hplace.1
  · rw [hp]
    exact hplace.2
  · show t.partitionSize q = _
    rcases Nat.eq_zero_or_pos q with rfl | hq'
    · exact hzero
    · rw [if_neg (Nat.ne_of_gt hq'), hsizes q hq' hq, hsize]
  · refine (hstart hnp (le_refl _)).trans ?_
    omega

/-! ## Given sizes -/

/-- The loop that adds up the sizes finds the starts and the own partition. -/
theorem prefix_steps {myNode n : Nat} {myPartition : Nat}
    (h : (List.range' 1 n).foldlM (prefixStep sizes myNode) (fun _ => 0, 0) =
      some (starts, myPartition)) :
    starts 0 = 0 ∧ (∀ p < n, 0 < sizes p ∧ starts (p + 1) = starts p + sizes p) ∧
      myPartition ≤ n ∧
      ∀ p ≤ n, starts p ≤ myNode ∧ myNode < starts p + sizes p →
        starts myPartition ≤ myNode ∧ myNode < starts myPartition + sizes myPartition := by
  induction n generalizing starts myPartition with
  | zero =>
    cases h
    refine ⟨rfl, nofun, le_refl 0, fun p hp hin => ?_⟩
    obtain rfl := Nat.le_zero.mp hp
    exact hin
  | succ n ih =>
    rw [range'_concat, foldlM_append] at h
    obtain ⟨state, hbefore, hlast⟩ := bind_eq_some_iff.mp h
    obtain ⟨starts₁, myPartition₁⟩ := state
    obtain ⟨hzero, hsteps, hle, hfound⟩ := ih hbefore
    obtain ⟨state, hstep, hpure⟩ := bind_eq_some_iff.mp hlast
    cases hpure
    obtain ⟨hpos, hsome⟩ := guard_bind_eq_some.mp hstep
    obtain ⟨hstarts, hmy⟩ := Prod.mk.inj (Option.some.inj hsome)
    rw [one_mul, add_comm 1 n, Nat.add_sub_cancel] at hstarts hmy hpos
    -- The round writes the start of `n + 1` only.
    have hnew : starts (n + 1) = starts₁ n + sizes n := by
      rw [← hstarts, update_self]
    have hold {p : Nat} (hp : p ≤ n) : starts p = starts₁ p := by
      rw [← hstarts, update_of_ne (by omega)]
    refine ⟨(hold (Nat.zero_le n)).trans hzero, ?_, ?_, ?_⟩
    · intro p hp
      rcases eq_or_lt_of_le (Nat.le_of_lt_succ hp) with rfl | hlt
      · exact ⟨hpos, by rw [hnew, hold (le_refl p)]⟩
      · obtain ⟨hpos', hstep'⟩ := hsteps p hlt
        exact ⟨hpos', by rw [hold hlt, hold (le_of_lt hlt), hstep']⟩
    · rw [← hmy]
      split
      · exact le_refl _
      · exact Nat.le_succ_of_le hle
    · intro p hp hin
      rw [← hnew] at hmy
      split at hmy
      · rename_i hin'
        rw [← hmy]
        exact hin'
      · rename_i hnot
        rw [← hmy]
        rcases eq_or_lt_of_le hp with rfl | hlt
        · exact absurd hin hnot
        · rw [hold (Nat.le_of_lt_succ hlt)] at hin
          rw [hold hle]
          exact hfound p (Nat.le_of_lt_succ hlt) hin

/-- `PARTITION_PREFIX`: the partitions have the sizes that are given. -/
theorem prefix_map_valid {numPartitions myNode : Nat} {partsizes : String}
    (h : prefixMap numPartitions myNode partsizes = some info) (hnp : 0 < numPartitions) :
    info.Valid myNode ∧ info.type = .prefixed ∧ info.numPartitions = numPartitions ∧
      readSizes numPartitions partsizes = some info.partitionSize := by
  obtain ⟨sizes, hsizes, hbind⟩ := bind_eq_some_iff.mp h
  obtain ⟨⟨starts, myPartition⟩, hsteps, hbind⟩ := bind_eq_some_iff.mp hbind
  obtain ⟨hlast, hinfo⟩ := guard_bind_eq_some.mp hbind
  cases hinfo
  obtain ⟨hzero, hstep, hle, hfound⟩ := prefix_steps hsteps
  have hpos : ∀ p < numPartitions, 0 < sizes p := by
    intro p hp
    rcases eq_or_lt_of_le (Nat.le_sub_one_of_lt hp) with rfl | hlt
    · exact hlast
    · exact (hstep p hlt).1
  have hstarts := start_of_step (n := numPartitions) _ hzero fun p hp => (hstep p (by omega)).2
  have hpart : myPartition < numPartitions := by omega
  refine ⟨⟨nofun, hpos, hstarts, fun p hp node _ _ => ?_, hpart, fun hlt => ?_⟩, rfl, rfl, hsizes⟩
  · show starts p + node = _
    rw [hstarts p hp]
  · obtain ⟨p, hp, hin⟩ := exists_block (Int.natCast_nonneg myNode) hlt
    rw [← hstarts p hp] at hin
    rw [← hstarts _ hpart]
    exact hfound p (Nat.le_sub_one_of_lt hp) hin

/-! ## The numbering -/

/-- What a process gets. The type and the sizes do not depend on the process. -/
theorem create_partition_map_valid {numNodes myNode : Nat}
    {node : Int} (h : createPartitionMap opts numNodes myNode = some (info, node))
    (hnode : myNode < numNodes) :
    info.Valid myNode ∧ node = myNode - info.partitionPrefix info.myPartition ∧
      info.numPartitions = opts.numPartitions.toNat ∧
      match opts.partitionSizes with
      | some partsizes => info.type = .prefixed ∧
          readSizes opts.numPartitions.toNat partsizes = some info.partitionSize
      | none => Blocks.start info.partitionSize info.numPartitions = numNodes ∧
          (info.type = if opts.masterPartition then .master else .default) ∧
          ∀ p < info.numPartitions, info.partitionSize p =
            if opts.masterPartition then
              if p = 0 then 1 else (numNodes - 1 : Int).tdiv (opts.numPartitions.toNat - 1 : Int)
            else (numNodes : Int).tdiv opts.numPartitions.toNat := by
  obtain ⟨hnp, hbind⟩ := guard_bind_eq_some.mp h
  obtain ⟨info', hinfo, hbind⟩ := bind_eq_some_iff.mp hbind
  obtain ⟨-, hsome⟩ := guard_bind_eq_some.mp hbind
  cases hsome
  have hpos : 0 < opts.numPartitions.toNat := by omega
  rw [Options.partitionMap] at hinfo
  cases hsizes : opts.partitionSizes with
  | some partsizes =>
    simp only [hsizes] at hinfo
    obtain ⟨-, hmap⟩ := guard_bind_eq_some.mp hinfo
    obtain ⟨hvalid, htype, hnum, hread⟩ := prefix_map_valid hmap hpos
    exact ⟨hvalid, rfl, hnum, htype, hread⟩
  | none =>
    simp only [hsizes] at hinfo
    cases hmaster : opts.masterPartition with
    | true =>
      rw [hmaster] at hinfo
      obtain ⟨hvalid, htype, hnum, hsize, hsum⟩ := master_map_valid hinfo hpos hnode
      exact ⟨hvalid, rfl, hnum, hnum ▸ hsum, htype, fun p hp => hsize p (hnum ▸ hp)⟩
    | false =>
      rw [hmaster] at hinfo
      obtain ⟨hvalid, htype, hnum, hsize, hsum⟩ := default_map_valid hinfo hpos hnode
      exact ⟨hvalid, rfl, hnum, hnum ▸ hsum, htype, fun p hp => hsize p (hnum ▸ hp)⟩

/-- All processes get the same table. -/
theorem create_partition_map_same {numNodes g g' : Nat}
    {info info' : PartitionInfo} {node node' : Int}
    (h : createPartitionMap opts numNodes g = some (info, node)) (hg : g < numNodes)
    (h' : createPartitionMap opts numNodes g' = some (info', node')) (hg' : g' < numNodes) :
    info.SameTable info' := by
  obtain ⟨hvalid, -, hnum, hopts⟩ := create_partition_map_valid h hg
  obtain ⟨hvalid', -, hnum', hopts'⟩ := create_partition_map_valid h' hg'
  have hnum_eq : info.numPartitions = info'.numPartitions := hnum.trans hnum'.symm
  have hsame : info.type = info'.type ∧
      ∀ p < info.numPartitions, info.partitionSize p = info'.partitionSize p := by
    cases hsizes : opts.partitionSizes with
    | some partsizes =>
      simp only [hsizes] at hopts hopts'
      have := Option.mem_unique hopts.2 hopts'.2
      exact ⟨hopts.1.trans hopts'.1.symm, fun p _ => congrFun this p⟩
    | none =>
      simp only [hsizes] at hopts hopts'
      exact ⟨hopts.2.1.trans hopts'.2.1.symm, fun p hp =>
        (hopts.2.2 p hp).trans (hopts'.2.2 p (hnum_eq ▸ hp)).symm⟩
  refine ⟨hsame.1, hnum_eq, hsame.2, fun p hp => ?_⟩
  rw [hvalid.prefix_eq p hp, hvalid'.prefix_eq p (hnum_eq ▸ hp)]
  exact start_congr fun q hq => hsame.2 q (lt_trans hq hp)

/-- A run in which `create_partition_map` returns in every process is numbered if and only if the
sizes that the user gives, if any, add up to the number of processes. -/
theorem numbered_iff (opts : Options) (numNodes nodeSize : Nat) (hnodes : 0 < numNodes)
    (hsize : 0 < nodeSize)
    (hreturns : ∀ g < numNodes, (createPartitionMap opts numNodes g).isSome) :
    Numbered opts numNodes nodeSize ↔
      ∀ partsizes, opts.partitionSizes = some partsizes →
        ∃ sizes, readSizes opts.numPartitions.toNat partsizes = some sizes ∧
          ∑ p ∈ Finset.range opts.numPartitions.toNat, sizes p = numNodes := by
  constructor
  · intro hnumbered partsizes hsizes
    obtain ⟨⟨info, node⟩, hmap⟩ := Option.isSome_iff_exists.mp (hreturns 0 hnodes)
    obtain ⟨hvalid, -, hnum, hopts⟩ := create_partition_map_valid hmap hnodes
    simp only [hsizes] at hopts
    refine ⟨_, hopts.2, ?_⟩
    rw [← hnum]
    exact (hvalid.numbers_iff hnodes hsize).mp (hnumbered.numbers 0 hnodes info node hmap).1
  · intro hsum
    refine ⟨fun g hg info node hmap => ?_, fun g hg g' hg' info node info' node' hmap hmap' =>
      create_partition_map_same hmap hg hmap' hg'⟩
    obtain ⟨hvalid, rfl, hnum, hopts⟩ := create_partition_map_valid hmap hg
    have htotal : start info.partitionSize info.numPartitions = numNodes := by
      cases hsizes : opts.partitionSizes with
      | some partsizes =>
        simp only [hsizes] at hopts
        obtain ⟨sizes, hread, hsum⟩ := hsum partsizes hsizes
        obtain rfl := Option.mem_unique hread hopts.2
        rw [hnum]
        exact hsum
      | none =>
        simp only [hsizes] at hopts
        exact hopts.1
    refine ⟨(hvalid.numbers_iff hnodes hsize).mpr htotal, hvalid.places ?_⟩
    rw [htotal]
    exact Int.ofNat_lt.mpr hg

/-- Five processes in partitions of one, two and two. -/
theorem one_two_two_numbered : Numbered ⟨some 3, false, some "0#1,1-2#2", false⟩ 5 2 := by
  refine (numbered_iff _ 5 2 (by decide) (by decide) (by decide)).mpr fun partsizes hsizes => ?_
  cases hsizes
  exact ⟨_, rfl, by decide⟩

/-- With sizes that add up to two, process 3 of four gets the local number 3 in a partition of one
process. -/
theorem short_sizes_not_numbered :
    (∀ g < 4, (createPartitionMap ⟨some 2, false, some "0-1#1", false⟩ 4 g).isSome) ∧
      ¬ Numbered ⟨some 2, false, some "0-1#1", false⟩ 4 1 := by
  refine ⟨by decide, fun hnumbered => ?_⟩
  have hmap : ((createPartitionMap ⟨some 2, false, some "0-1#1", false⟩ 4 3).any fun r =>
      decide (r.1.partitionSize r.1.myPartition ≤ r.2)) = true := by decide
  obtain ⟨⟨info, node⟩, hmap, hle⟩ := (Option.any_eq_true ..).mp hmap
  have hplaces := (hnumbered.numbers 3 (by decide) info node hmap).2
  exact absurd hplaces.lt_size (not_lt.mpr (of_decide_eq_true hle))

end Reconverse.Partition
