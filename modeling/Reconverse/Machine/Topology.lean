import Reconverse.Lib.RootedTree

/-!
# Nodes, processing elements and the spanning-tree macros

A machine runs `numNodes` processes (nodes) of `nodeSize` processing elements (PEs) each. PE
numbers are contiguous per node, as in `CmiNodeOf`, `CmiRankOf` and `CmiNodeFirst`. The
`CmiSpanTree...` macros of `converse.h` describe a tree over PEs and one over nodes; here they
are shown to agree with a `RootedTree`: `num_span_tree_children_eq` says the child count the
macros compute is the number of PEs whose parent macro names this PE.

PE and node numbers are natural numbers. The value `-1` that the parent macros return for the
root is `none`.
-/

namespace Reconverse

open Lib List

/-- Where the memory of messages comes from: the pools of the LCI backend, or `std::malloc`, if
there is no backend or it has no `malloc`. -/
inductive Backend where
  | lci
  | std
  deriving DecidableEq, Repr

/-- The layout of a run: how many nodes there are and how many PEs each of them has. -/
structure Machine where
  numNodes : Nat
  nodeSize : Nat
  numNodes_pos : 0 < numNodes
  nodeSize_pos : 0 < nodeSize
  backend : Backend := .lci

namespace Machine

variable (m : Machine)

/-- `CmiNumPes`. -/
def cmiNumPes : Nat := m.numNodes * m.nodeSize

/-- `CmiNodeOf`: the node a PE belongs to. -/
def cmiNodeOf (pe : Nat) : Nat := pe / m.nodeSize

/-- `CmiRankOf`: the index of a PE within its node. -/
def cmiRankOf (pe : Nat) : Nat := pe % m.nodeSize

/-- `CmiNodeFirst`: the first PE of a node. -/
def cmiNodeFirst (node : Nat) : Nat := node * m.nodeSize

variable {m} {node rank : Nat}

theorem cmi_rank_of_lt (pe : Nat) : m.cmiRankOf pe < m.nodeSize :=
  Nat.mod_lt _ m.nodeSize_pos

/-- A PE number splits into the first PE of its node and its rank there. -/
theorem node_first_add_rank (pe : Nat) : m.cmiNodeFirst (m.cmiNodeOf pe) + m.cmiRankOf pe = pe := by
  rw [cmiNodeFirst, mul_comm]
  exact Nat.div_add_mod pe m.nodeSize

@[simp] theorem node_of_node_first_add (h : rank < m.nodeSize) :
    m.cmiNodeOf (m.cmiNodeFirst node + rank) = node := by
  rw [cmiNodeOf, cmiNodeFirst, mul_comm, Nat.mul_add_div m.nodeSize_pos,
    Nat.div_eq_of_lt h, add_zero]

@[simp] theorem rank_of_node_first_add (h : rank < m.nodeSize) :
    m.cmiRankOf (m.cmiNodeFirst node + rank) = rank := by
  rw [cmiRankOf, cmiNodeFirst, mul_comm, Nat.mul_add_mod, Nat.mod_eq_of_lt h]

@[simp] theorem node_of_node_first (node : Nat) : m.cmiNodeOf (m.cmiNodeFirst node) = node :=
  node_of_node_first_add m.nodeSize_pos

@[simp] theorem rank_of_node_first (node : Nat) : m.cmiRankOf (m.cmiNodeFirst node) = 0 :=
  rank_of_node_first_add m.nodeSize_pos

/-- A PE exists exactly if its node does. -/
theorem lt_num_pes_iff {pe : Nat} : pe < m.cmiNumPes ↔ m.cmiNodeOf pe < m.numNodes := by
  rw [cmiNumPes, cmiNodeOf, Nat.div_lt_iff_lt_mul m.nodeSize_pos]

theorem node_first_lt {node : Nat} (hn : node < m.numNodes) :
    m.cmiNodeFirst node < m.cmiNumPes := by
  rwa [lt_num_pes_iff, node_of_node_first]

theorem num_pes_pos : 0 < m.cmiNumPes :=
  Nat.mul_pos m.numNodes_pos m.nodeSize_pos

/-- The PEs of a node, in rank order. -/
def cmiNodePes (m : Machine) (node : Nat) : List Nat :=
  (List.range m.nodeSize).map (m.cmiNodeFirst node + ·)

@[simp] theorem mem_node_pes {node pe : Nat} : pe ∈ m.cmiNodePes node ↔ m.cmiNodeOf pe = node := by
  simp only [cmiNodePes, mem_map, mem_range]
  constructor
  · rintro ⟨r, hr, rfl⟩
    exact node_of_node_first_add hr
  · rintro rfl
    exact ⟨m.cmiRankOf pe, cmi_rank_of_lt pe, node_first_add_rank pe⟩

theorem node_pes_nodup (node : Nat) : (m.cmiNodePes node).Nodup :=
  nodup_range.map fun _ _ h => Nat.add_left_cancel h

/-- The PEs whose node is `node` are the PEs of that node. -/
theorem filter_node_of_perm {node : Nat} (hn : node < m.numNodes) :
    ((List.range m.cmiNumPes).filter (m.cmiNodeOf · = node)).Perm (m.cmiNodePes node) := by
  rw [perm_ext_iff_of_nodup (nodup_range.filter _) (node_pes_nodup node)]
  intro pe
  simp only [mem_filter, mem_range, decide_eq_true_eq, mem_node_pes, lt_num_pes_iff]
  exact ⟨And.right, fun h => ⟨h ▸ hn, h⟩⟩

end Machine

/-! ## The spanning-tree macros -/

/-- `CST_W`: the arity of the spanning trees. -/
def cstW : Nat := 4

/-- `CmiNodeSpanTreeParent`. -/
def cmiNodeSpanTreeParent (n : Nat) : Option Nat :=
  if n ≠ 0 then some ((n - 1) / cstW) else none

/-- The numbers `n * CST_W + _i + 1` for `_i < CST_W` that stay below `bound`: the children of
`n` in the `CST_W`-ary tree over `0 .. bound - 1`. -/
def spanChildren (bound n : Nat) : List Nat :=
  ((List.range cstW).map fun i => n * cstW + i + 1).filter (· < bound)

/-- The count that `CmiNumNodeSpanTreeChildren` and `CST_C` compute for position `n` of
`bound` positions. -/
def numSpanChildren (bound n : Nat) : Nat :=
  if (n + 1) * cstW < bound then cstW
  else if n * cstW + 1 ≥ bound then 0
  else (bound - 1) - n * cstW

namespace Machine

variable (m : Machine)

/-- `CmiNodeSpanTreeChildren`: the entries written to `c`. -/
def cmiNodeSpanTreeChildren (n : Nat) : List Nat := spanChildren m.numNodes n

/-- `CmiNumNodeSpanTreeChildren`. -/
def cmiNumNodeSpanTreeChildren (n : Nat) : Nat := numSpanChildren m.numNodes n

/-- `CmiSpanTreeParent`. A PE of positive rank hangs off a PE of its own node; the first PE of
a node hangs off the first PE of the parent node. -/
def cmiSpanTreeParent (p : Nat) : Option Nat :=
  if p ≠ 0 then
    if m.cmiRankOf p ≠ 0 then
      some (m.cmiNodeFirst (m.cmiNodeOf p) + (m.cmiRankOf p - 1) / cstW)
    else (cmiNodeSpanTreeParent (m.cmiNodeOf p)).map m.cmiNodeFirst
  else none

/-- `CST_C`: the children of a PE within its own node. -/
def cstC (p : Nat) : Nat := numSpanChildren m.nodeSize (m.cmiRankOf p)

/-- `CST_SC`: the child nodes of a PE's node. -/
def cstSC (p : Nat) : Nat := m.cmiNumNodeSpanTreeChildren (m.cmiNodeOf p)

/-- `CmiNumSpanTreeChildren`. -/
def cmiNumSpanTreeChildren (p : Nat) : Nat :=
  if m.cmiRankOf p ≠ 0 then m.cstC p else m.cstSC p + m.cstC p

/-- `CmiSpanTreeChildren`: the entries written to `c`, the first PEs of the child nodes before
the children within the node. -/
def cmiSpanTreeChildren (p : Nat) : List Nat :=
  (if m.cmiRankOf p = 0 then
    (spanChildren m.numNodes (m.cmiNodeOf p)).map m.cmiNodeFirst else []) ++
  (spanChildren m.nodeSize (m.cmiRankOf p)).map fun x => m.cmiNodeFirst (m.cmiNodeOf p) + x

end Machine

/-! ## The arity-`CST_W` tree over an initial segment -/

@[simp] theorem mem_span_children {bound n c : Nat} :
    c ∈ spanChildren bound n ↔ c < bound ∧ c ≠ 0 ∧ (c - 1) / cstW = n := by
  simp only [spanChildren, cstW, mem_filter, mem_map, mem_range, decide_eq_true_eq]
  constructor
  · omega
  · rintro ⟨hc, h0, hn⟩
    exact ⟨⟨c - 1 - n * 4, by omega, by omega⟩, hc⟩

theorem span_children_nodup (bound n : Nat) : (spanChildren bound n).Nodup := by
  refine List.Nodup.filter _ (List.Nodup.map ?_ nodup_range)
  intro i j hij
  simpa using hij

/-- The three branches of the count are one truncated difference. -/
theorem num_span_children_eq_min (bound n : Nat) :
    numSpanChildren bound n = min cstW (bound - 1 - n * cstW) := by
  unfold numSpanChildren
  split_ifs <;> simp only [cstW] at * <;> omega

/-- The numbers the test lets through come first, so iteration `_i` writes the child at `_i`. -/
theorem span_children_eq_map (bound n : Nat) :
    spanChildren bound n = (List.range (numSpanChildren bound n)).map (n * cstW + · + 1) := by
  have hfirst (k : Nat) : (List.range cstW).filter (· < k) = List.range (min cstW k) := by
    rcases k with _ | _ | _ | _ | k <;> simp [cstW, range_succ]
  rw [num_span_children_eq_min, ← hfirst, spanChildren, filter_map]
  congr 1
  refine filter_congr fun i _ => decide_eq_decide.mpr ?_
  simp only [Nat.add_lt_iff_lt_sub_right]
  omega

/-- The macros' child count is the number of children they enumerate. -/
theorem span_children_length (bound n : Nat) :
    (spanChildren bound n).length = numSpanChildren bound n := by
  rw [span_children_eq_map, length_map, length_range]

theorem node_span_tree_parent_eq_some {n p : Nat} :
    cmiNodeSpanTreeParent n = some p ↔ n ≠ 0 ∧ (n - 1) / cstW = p := by
  simp [cmiNodeSpanTreeParent]

/-- Parents have smaller numbers. -/
theorem node_span_tree_parent_lt {n p : Nat} (h : cmiNodeSpanTreeParent n = some p) : p < n := by
  rw [node_span_tree_parent_eq_some] at h
  simp only [cstW] at h
  omega

/-- The tree `CmiNodeSpanTreeParent` describes over the first `bound` numbers. -/
def spanTree (bound : Nat) (hpos : 0 < bound) : RootedTree Nat where
  members := List.range bound
  nodup := nodup_range
  parent := cmiNodeSpanTreeParent
  root := 0
  rank := id
  root_mem := mem_range.mpr hpos
  parent_mem hc hp := mem_range.mpr
    (Nat.lt_trans (node_span_tree_parent_lt hp) (mem_range.mp hc))
  parent_rank _ hp := node_span_tree_parent_lt hp
  parent_eq_none _ := by simp [cmiNodeSpanTreeParent]

/-- The enumerated children are the children in the tree. -/
theorem span_children_perm {bound : Nat} (hpos : 0 < bound) (n : Nat) :
    (spanChildren bound n).Perm ((spanTree bound hpos).children n) := by
  rw [perm_ext_iff_of_nodup (span_children_nodup bound n) (RootedTree.children_nodup _ n)]
  simp [spanTree, node_span_tree_parent_eq_some]

/-! ## The tree over PEs -/

namespace Machine

variable {m : Machine} {c p : Nat}

/-- The parent of a PE, by cases on its rank. -/
theorem span_tree_parent_eq_some :
    m.cmiSpanTreeParent c = some p ↔
      (m.cmiRankOf c ≠ 0 ∧ m.cmiNodeFirst (m.cmiNodeOf c) + (m.cmiRankOf c - 1) / cstW = p) ∨
      (m.cmiRankOf c = 0 ∧ m.cmiNodeOf c ≠ 0 ∧
        m.cmiNodeFirst ((m.cmiNodeOf c - 1) / cstW) = p) := by
  have hzero : c = 0 → m.cmiNodeOf c = 0 ∧ m.cmiRankOf c = 0 := by
    rintro rfl
    simp [cmiNodeOf, cmiRankOf]
  have hback : m.cmiNodeOf c = 0 → m.cmiRankOf c = 0 → c = 0 := by
    intro hn hr
    rw [← node_first_add_rank c, hn, hr]
    simp [cmiNodeFirst]
  by_cases hc : c = 0
  · obtain ⟨hn, hr⟩ := hzero hc
    simp [cmiSpanTreeParent, hc]
    simp [← hc, hn, hr]
  · by_cases hr : m.cmiRankOf c = 0
    · have hn : m.cmiNodeOf c ≠ 0 := fun hn => hc (hback hn hr)
      simp [cmiSpanTreeParent, cmiNodeSpanTreeParent, hc, hr, hn]
    · simp [cmiSpanTreeParent, hc, hr]

/-- Parents have smaller numbers. -/
theorem span_tree_parent_lt (h : m.cmiSpanTreeParent c = some p) : p < c := by
  have hsplit := node_first_add_rank (m := m) c
  rw [span_tree_parent_eq_some] at h
  obtain ⟨hr, rfl⟩ | ⟨hr, hn, rfl⟩ := h
  · have : (m.cmiRankOf c - 1) / cstW < m.cmiRankOf c := by simp only [cstW]; omega
    omega
  · have hlt : (m.cmiNodeOf c - 1) / cstW < m.cmiNodeOf c := by simp only [cstW]; omega
    have := Nat.mul_lt_mul_of_pos_right hlt m.nodeSize_pos
    simp only [cmiNodeFirst] at hsplit ⊢
    omega

/-- The tree `CmiSpanTreeParent` describes over the PEs of the machine. -/
def peSpanTree (m : Machine) : RootedTree Nat where
  members := List.range m.cmiNumPes
  nodup := nodup_range
  parent := m.cmiSpanTreeParent
  root := 0
  rank := id
  root_mem := mem_range.mpr num_pes_pos
  parent_mem hc hp := mem_range.mpr
    (Nat.lt_trans (span_tree_parent_lt hp) (mem_range.mp hc))
  parent_rank _ hp := span_tree_parent_lt hp
  parent_eq_none {c} _ := by
    constructor
    · intro h
      by_contra hc
      have hsome : ∃ p, m.cmiSpanTreeParent c = some p := by
        by_cases hr : m.cmiRankOf c = 0
        · refine ⟨m.cmiNodeFirst ((m.cmiNodeOf c - 1) / cstW),
            span_tree_parent_eq_some.mpr (.inr ⟨hr, ?_, rfl⟩)⟩
          intro hn
          apply hc
          rw [← node_first_add_rank (m := m) c, hn, hr]
          simp [cmiNodeFirst]
        · exact ⟨_, span_tree_parent_eq_some.mpr (.inl ⟨hr, rfl⟩)⟩
      obtain ⟨p, hp⟩ := hsome
      rw [hp] at h
      cases h
    · rintro rfl
      simp [cmiSpanTreeParent]

/-- The entries `CmiSpanTreeChildren` writes are the PEs whose parent is `p`. -/
theorem mem_span_tree_children {p c : Nat} (hp : p < m.cmiNumPes) :
    c ∈ m.cmiSpanTreeChildren p ↔ c < m.cmiNumPes ∧ m.cmiSpanTreeParent c = some p := by
  have hnp := lt_num_pes_iff.mp hp
  rw [span_tree_parent_eq_some, lt_num_pes_iff]
  simp only [cmiSpanTreeChildren, mem_append, mem_map, mem_span_children, mem_ite_nil_right]
  constructor
  · rintro (⟨hr, n, ⟨hn, hn0, hpar⟩, rfl⟩ | ⟨r, ⟨hr, hr0, hpar⟩, rfl⟩)
    · rw [node_of_node_first, rank_of_node_first]
      refine ⟨hn, .inr ⟨rfl, hn0, ?_⟩⟩
      rw [hpar, ← node_first_add_rank p, hr]
      simp
    · rw [node_of_node_first_add hr, rank_of_node_first_add hr]
      refine ⟨hnp, .inl ⟨hr0, ?_⟩⟩
      rw [hpar, node_first_add_rank]
  · rintro ⟨hc, ⟨hr, hpar⟩ | ⟨hr, hn, hpar⟩⟩
    · have hlt : (m.cmiRankOf c - 1) / cstW < m.nodeSize := by
        have := cmi_rank_of_lt (m := m) c
        simp only [cstW]
        omega
      refine .inr ⟨m.cmiRankOf c, ⟨cmi_rank_of_lt c, hr, ?_⟩, ?_⟩
      · rw [← hpar, rank_of_node_first_add hlt]
      · rw [← hpar, node_of_node_first_add hlt, node_first_add_rank]
    · refine .inl ⟨by rw [← hpar, rank_of_node_first], m.cmiNodeOf c, ⟨hc, hn, ?_⟩, ?_⟩
      · rw [← hpar, node_of_node_first]
      · have := node_first_add_rank (m := m) c
        rwa [hr] at this

theorem node_first_injective : Function.Injective m.cmiNodeFirst := by
  intro n n' h
  simpa using congrArg m.cmiNodeOf h

theorem span_tree_children_nodup (p : Nat) : (m.cmiSpanTreeChildren p).Nodup := by
  rw [cmiSpanTreeChildren, nodup_append]
  refine ⟨?_, (span_children_nodup _ _).map fun _ _ h => Nat.add_left_cancel h, ?_⟩
  · split
    · exact (span_children_nodup _ _).map node_first_injective
    · exact nodup_nil
  · intro x hx y hy hxy
    simp only [mem_ite_nil_right, mem_map, mem_span_children] at hx hy
    obtain ⟨-, n, -, rfl⟩ := hx
    obtain ⟨r, ⟨hr, hr0, -⟩, rfl⟩ := hy
    have := congrArg m.cmiRankOf hxy
    rw [rank_of_node_first, rank_of_node_first_add hr] at this
    exact hr0 this.symm

/-- The children that the macros give are those of the tree. -/
theorem span_tree_children_perm {p : Nat} (hp : p < m.cmiNumPes) :
    (m.cmiSpanTreeChildren p).Perm (m.peSpanTree.children p) := by
  rw [perm_ext_iff_of_nodup (span_tree_children_nodup p) (RootedTree.children_nodup _ p)]
  intro c
  rw [mem_span_tree_children hp]
  simp [peSpanTree]

/-- `CmiNumSpanTreeChildren` counts the PEs whose parent is `p`. -/
theorem num_span_tree_children_eq {p : Nat} (hp : p < m.cmiNumPes) :
    m.cmiNumSpanTreeChildren p = (m.peSpanTree.children p).length := by
  rw [← (span_tree_children_perm hp).length_eq]
  simp only [cmiNumSpanTreeChildren, cmiSpanTreeChildren, cstC, cstSC,
    cmiNumNodeSpanTreeChildren, length_append, length_map, ← span_children_length]
  split_ifs <;> simp_all

end Machine

/-! ## The macros describe one tree -/

/-- What ties a parent macro, a macro that writes the children and one that counts them over
`0 .. bound - 1`: the children written are as many as counted, distinct, and the numbers whose
parent is `p`, and following parents from `p` ends at `0`. -/
def SpanTreeLaws (bound : Nat) (parent : Nat → Option Nat) (children : Nat → List Nat)
    (numChildren : Nat → Nat) : Prop :=
  ∀ p < bound, (children p).length = numChildren p ∧ (children p).Nodup ∧
    (∀ q, q ∈ children p ↔ q < bound ∧ parent q = some p) ∧
    Relation.ReflTransGen (fun q r => parent q = some r) p 0

namespace Machine

/-- The spanning-tree macros for PEs and for nodes describe one tree each. The node form writes
child `_i` to `c[_i]`, where the PE form counts its writes. -/
theorem span_tree_macros_laws (m : Machine) :
    SpanTreeLaws m.cmiNumPes m.cmiSpanTreeParent m.cmiSpanTreeChildren
      m.cmiNumSpanTreeChildren ∧
    SpanTreeLaws m.numNodes cmiNodeSpanTreeParent m.cmiNodeSpanTreeChildren
      m.cmiNumNodeSpanTreeChildren ∧
    ∀ n, m.cmiNodeSpanTreeChildren n =
      (List.range (m.cmiNumNodeSpanTreeChildren n)).map (n * cstW + · + 1) := by
  refine ⟨fun p hp => ⟨?_, span_tree_children_nodup p, fun q => mem_span_tree_children hp, ?_⟩,
    fun n hn => ⟨span_children_length _ n, span_children_nodup _ n, fun q => ?_, ?_⟩,
    span_children_eq_map m.numNodes⟩
  · rw [num_span_tree_children_eq hp, (span_tree_children_perm hp).length_eq]
  · exact (RootedTree.below_root (t := m.peSpanTree) (mem_range.mpr hp)).reflTransGen
  · rw [cmiNodeSpanTreeChildren, mem_span_children, node_span_tree_parent_eq_some]
  · exact (RootedTree.below_root (t := spanTree m.numNodes m.numNodes_pos)
      (mem_range.mpr hn)).reflTransGen

/-! ## The height of the tree -/

/-- A step to the parent takes a power of the arity from the bound on the height. -/
theorem pow_succ_le_of_parent {n d : Nat} (hn : n ≠ 0) (h : cstW ^ d ≤ 3 * ((n - 1) / cstW) + 1) :
    cstW ^ (d + 1) ≤ 3 * n + 1 := by
  rw [pow_succ]
  simp only [cstW] at h ⊢
  omega

/-- The PE that is `k` steps of `CmiSpanTreeParent` above `pe`, if there is one. -/
def spanTreeAncestor (m : Machine) (k pe : Nat) : Option Nat :=
  (·.bind m.cmiSpanTreeParent)^[k] (some pe)

/-- The steps from a PE are those from its parent, after the first. -/
theorem ancestor_succ {m : Machine} {pe p : Nat} (hp : m.cmiSpanTreeParent pe = some p) (k : Nat) :
    m.spanTreeAncestor (k + 1) pe = m.spanTreeAncestor k p := by
  rw [spanTreeAncestor, Function.iterate_succ_apply, Option.bind_some, hp]
  rfl

/-- From every PE, `CmiSpanTreeParent` leads to PE 0 in logarithmically many steps: first `d` within
its node, over the ranks, and then `e` from node to node, over their first PEs. -/
theorem span_tree_height (m : Machine) (pe : Nat) :
    ∃ d e, m.spanTreeAncestor (d + e) pe = some 0 ∧
      (∀ k ≤ d, ∃ q, m.spanTreeAncestor k pe = some q ∧ m.cmiNodeOf q = m.cmiNodeOf pe) ∧
      (∀ k, d ≤ k → k ≤ d + e → ∃ q, m.spanTreeAncestor k pe = some q ∧ m.cmiRankOf q = 0) ∧
      d ≤ Nat.log cstW (3 * m.cmiRankOf pe + 1) ∧ e ≤ Nat.log cstW (3 * m.cmiNodeOf pe + 1) := by
  simp only [Nat.le_log_iff_pow_le (show 1 < cstW by decide) (Nat.succ_ne_zero _)]
  induction pe using Nat.strongRecOn with
  | ind pe ih =>
    by_cases hr : m.cmiRankOf pe = 0
    · by_cases hn : m.cmiNodeOf pe = 0
      · have hzero : pe = 0 := by
          rw [← node_first_add_rank (m := m) pe, hn, hr, cmiNodeFirst, Nat.zero_mul]
        refine ⟨0, 0, congrArg some hzero, fun k hk => ?_, fun k _ hk => ?_, Nat.succ_pos _,
          Nat.succ_pos _⟩
        · exact ⟨pe, by rw [Nat.le_zero.mp hk]; rfl, rfl⟩
        · exact ⟨pe, by rw [Nat.le_zero.mp hk]; rfl, hr⟩
      · have hp := span_tree_parent_eq_some.mpr (.inr ⟨hr, hn, rfl⟩)
        obtain ⟨d, e, hup, -, hfirst, hd, he⟩ := ih _ (span_tree_parent_lt hp)
        rw [node_of_node_first] at he
        rw [rank_of_node_first] at hd
        -- The parent is the first PE of its node, with no steps within the node.
        obtain rfl : d = 0 := by
          by_contra hne
          exact absurd hd (Nat.not_le.mpr (Nat.one_lt_pow hne (by decide)))
        refine ⟨0, e + 1, ?_, fun k hk => ⟨pe, by rw [Nat.le_zero.mp hk]; rfl, rfl⟩,
          fun k _ hk => ?_, Nat.succ_pos _, pow_succ_le_of_parent hn he⟩
        · rw [← Nat.add_assoc, ancestor_succ hp, hup]
        · cases k with
          | zero => exact ⟨pe, rfl, hr⟩
          | succ k =>
            rw [ancestor_succ hp]
            exact hfirst k (Nat.zero_le k) (by omega)
    · have hp := span_tree_parent_eq_some.mpr (.inl ⟨hr, rfl⟩)
      obtain ⟨d, e, hup, hinside, hfirst, hd, he⟩ := ih _ (span_tree_parent_lt hp)
      have hlt : (m.cmiRankOf pe - 1) / cstW < m.nodeSize :=
        Nat.lt_of_le_of_lt ((Nat.div_le_self ..).trans (Nat.sub_le ..)) (cmi_rank_of_lt pe)
      rw [rank_of_node_first_add hlt] at hd
      rw [node_of_node_first_add hlt] at he hinside
      refine ⟨d + 1, e, ?_, fun k hk => ?_, fun k hle hk => ?_, pow_succ_le_of_parent hr hd, he⟩
      · rw [Nat.add_right_comm, ancestor_succ hp, hup]
      · cases k with
        | zero => exact ⟨pe, rfl, rfl⟩
        | succ k =>
          rw [ancestor_succ hp]
          exact hinside k (by omega)
      · obtain ⟨k, rfl⟩ := Nat.exists_eq_add_of_le' (Nat.le_of_add_left_le hle)
        rw [ancestor_succ hp]
        exact hfirst k (by omega) (by omega)

end Machine

end Reconverse
