import Reconverse.HostTopology.Model
import Reconverse.Lib.Ranks

/-!
# The host map

The numbers that `cpuTopoHandler` gives to the hosts depend on the order of the records in the
merged message, but only through which PE of a host comes first (`firstPe`). Compacting them turns
them into ranks, so that every process ends up with one numbering of the hosts from 0 on, `hostMap`.
-/

namespace Reconverse.HostTopology

open Lib List CpuTopology

variable {α : Type}

/-! ## The message -/

mutual

/-- The records in a message are the contributions in the merge, in their order. -/
theorem message_eq (own : Nat → ProcInfo α) :
    ∀ v : Merged Nat, message own v = v.leaves.map own
  | .node pe parts => by
      rw [message, messages_eq own parts, Merged.leaves_node]
      unfold combineMessage
      cases parts with
      | nil => rfl
      | cons v vs =>
        rw [if_neg (by simp), map_cons (a := pe), map_flatMap, flatMap_def]
        rfl

/-- The same for a list of merges. -/
theorem messages_eq (own : Nat → ProcInfo α) :
    ∀ vs : List (Merged Nat), messages own vs = vs.map fun v => v.leaves.map own
  | [] => by rw [messages]; rfl
  | v :: vs => by rw [messages, message_eq own v, messages_eq own vs]; rfl

end

/-! ## The provisional numbers -/

variable [DecidableEq α] (m : Machine) (ip : Nat → α) (order : List Nat)

/-- The address of a PE. -/
def ipOf (pe : Nat) : α := ip (m.cmiNodeOf pe)

/-- The first PE in the message with the address of a PE. -/
def firstPe (pe : Nat) : Nat := (order.find? fun q => ipOf m ip q = ipOf m ip pe).getD pe

/-- What the loop of `cpuTopoHandler` has done after the records of the PEs `order`. -/
structure Handled (s : List (α × Int) × List Int) : Prop where
  table : ∀ a, (s.1.find? (·.1 = a)).map (·.2) =
    (order.find? fun q => ipOf m ip q = a).map fun q : Nat => (q : Int)
  length : s.2.length = m.cmiNumPes
  nodes : ∀ pe ∈ order, pe < m.cmiNumPes → s.2[pe]? = some (firstPe m ip order pe : Int)

variable {m ip order} {pe : Nat}

theorem find_ip_is_some (ip : Nat → α) (h : pe ∈ order) :
    (order.find? fun q => ipOf m ip q = ipOf m ip pe).isSome :=
  find?_isSome.mpr ⟨pe, h, decide_eq_true rfl⟩

/-- A later message does not change the first PE of a host. -/
theorem first_pe_append (h : pe ∈ order) (x : Nat) :
    firstPe m ip (order ++ [x]) pe = firstPe m ip order pe := by
  unfold firstPe
  rw [find?_append, Option.or_of_isSome (find_ip_is_some ip h)]

theorem find_ip_append (a : α) (x : Nat) : (order ++ [x]).find? (fun q => ipOf m ip q = a) =
    (order.find? fun q => ipOf m ip q = a).or (if ipOf m ip x = a then some x else none) := by
  simp [find?_append, find?_singleton]

/-- One more message is handled. -/
theorem Handled.step {s : List (α × Int) × List Int} (h : Handled m ip order s) (x : Nat) :
    Handled m ip (order ++ [x]) (handleProc s (procOf m ip x)) := by
  have hx := h.table (ipOf m ip x)
  show Handled m ip (order ++ [x]) (handleProc s ⟨ipOf m ip x, x, 0⟩)
  unfold handleProc
  dsimp only
  have hnodes (n : Int) (hn : firstPe m ip (order ++ [x]) x = n) (pe : Nat)
      (hpe : pe ∈ order ++ [x]) (hlt : pe < m.cmiNumPes) :
      (s.2.set x n)[pe]? = some (firstPe m ip (order ++ [x]) pe : Int) := by
    by_cases heq : x = pe
    · subst heq
      rw [getElem?_set_self (by rw [h.length]; exact hlt), hn]
    · have hmem : pe ∈ order := by simpa [Ne.symm heq] using hpe
      rw [getElem?_set_ne heq, first_pe_append hmem]
      exact h.nodes pe hmem hlt
  cases hfind : order.find? fun q => ipOf m ip q = ipOf m ip x with
  | some q =>
    rw [hfind] at hx
    obtain ⟨rec, hrec, hval⟩ := Option.map_eq_some_iff.mp hx
    rw [hrec]
    refine ⟨fun a => ?_, (length_set ..).trans h.length, hnodes rec.2 ?_⟩
    · have := h.table a
      grind
    · rw [firstPe, find_ip_append, hfind, hval]
      rfl
  | none =>
    rw [hfind] at hx
    rw [Option.map_eq_none_iff.mp hx]
    refine ⟨fun a => ?_, (length_set ..).trans h.length, hnodes x ?_⟩
    · have := h.table a
      grind
    · rw [firstPe, find_ip_append, hfind, if_pos rfl]
      rfl

/-- The loop of `cpuTopoHandler`. -/
theorem handled (m : Machine) (ip : Nat → α) (order : List Nat) :
    Handled m ip order ((order.map (procOf m ip)).foldl handleProc
      ([], List.replicate m.cmiNumPes (-1))) := by
  induction order using reverseRecOn with
  | nil =>
    exact ⟨fun a => rfl, length_replicate, fun pe hpe => absurd hpe not_mem_nil⟩
  | append_singleton order x ih =>
    rw [map_append, foldl_append]
    exact ih.step x

variable (m ip order)

/-- The numbers that are broadcast. -/
def provisional : List Int := (List.range m.cmiNumPes).map fun pe : Nat =>
    (firstPe m ip order pe : Int)

variable {m ip order} {us : List Int}

/-- Once all messages were handled each PE has the first PE of its host. -/
theorem handler_eq (h : order.Perm (List.range m.cmiNumPes)) :
    cpuTopoHandler m (order.map (procOf m ip)) = some (provisional m ip order) := by
  have hlen : (order.map (procOf m ip)).length = m.cmiNumPes := by
    rw [length_map, h.length_eq, length_range]
  have hloop := handled m ip order
  unfold cpuTopoHandler
  rw [if_pos hlen]
  refine congrArg some (ext_getElem? fun pe => ?_)
  unfold provisional
  by_cases hlt : pe < m.cmiNumPes
  · rw [hloop.nodes pe (h.mem_iff.mpr (mem_range.mpr hlt)) hlt, getElem?_map, getElem?_range hlt]
    rfl
  · rw [getElem?_eq_none (by rw [hloop.length]; omega), getElem?_eq_none (by simpa using hlt)]

/-! ## Compacting them -/

/-- What the loop of `numUniqNodes` has done after the sorted numbers `us`. -/
structure Scanned (us : List Int) (u : Uniq) : Prop where
  num : u.numNodes = us.toFinset.card
  map : ∀ x ∈ us, u.nodemap x = rank us.toFinset x
  le_last : ∀ x ∈ us, x ≤ u.last
  last : u.last ∈ us ∨ u.last = -1

/-- One more number of the sorted list is looked at. -/
theorem Scanned.step {u : Uniq} {x : Int} (h : Scanned us u) (hpos : 0 ≤ x)
    (hle : ∀ y ∈ us, y ≤ x) : Scanned (us ++ [x]) (uniqStep u x) := by
  have hset : (us ++ [x]).toFinset = insert x us.toFinset := by
    rw [toFinset_append, Finset.union_comm]
    rfl
  have hmem : ∀ y, y ∈ us ++ [x] ↔ y ∈ us ∨ y = x := by simp
  unfold uniqStep
  by_cases heq : x = u.last
  · have hx : x ∈ us := heq ▸ h.last.resolve_right (by omega)
    rw [if_neg (not_not.mpr heq)]
    constructor
    case num => rw [hset, Finset.insert_eq_of_mem (mem_toFinset.mpr hx), h.num]
    case map =>
      intro y hy
      rw [hset, Finset.insert_eq_of_mem (mem_toFinset.mpr hx)]
      exact h.map y (((hmem y).mp hy).elim id (· ▸ hx))
    case le_last => exact fun y hy => ((hmem y).mp hy).elim (h.le_last y) (· ▸ heq.le)
    case last => exact .inl (mem_append_left _ (heq ▸ hx))
  · have hlt : ∀ y ∈ us, y < x := by
      intro y hy
      have := h.le_last y hy
      have := h.last.imp_left (hle u.last)
      omega
    rw [if_pos heq]
    constructor
    case num =>
      rw [hset, Finset.card_insert_of_notMem fun hx => (hlt x (mem_toFinset.mp hx)).false]
      exact congrArg (· + 1) h.num
    case map =>
      intro y hy
      show Function.update u.nodemap x u.numNodes y = _
      rw [hset]
      obtain hy | rfl := (hmem y).mp hy
      · rw [Function.update_of_ne (hlt y hy).ne, h.map y hy, rank_insert_of_le (hlt y hy).le]
      · rw [Function.update_self, rank_insert_of_le le_rfl,
          rank, Finset.filter_true_of_mem fun z hz => hlt z (mem_toFinset.mp hz), h.num]
    case le_last => exact fun y hy => ((hmem y).mp hy).elim (hle y) fun heq => heq.le
    case last => exact .inl (mem_append_right _ mem_cons_self)

/-- The loop of `numUniqNodes` over sorted numbers. -/
theorem scanned_uniq (hsorted : us.Pairwise (· ≤ ·)) (hpos : ∀ x ∈ us, 0 ≤ x) :
    Scanned us (uniq us) := by
  induction us using reverseRecOn with
  | nil => exact ⟨rfl, nofun, nofun, .inr rfl⟩
  | append_singleton us x ih =>
    obtain ⟨hus, -, hle⟩ := pairwise_append.mp hsorted
    rw [show uniq (us ++ [x]) = uniqStep (uniq us) x from foldl_append ..]
    exact (ih hus fun y hy => hpos y (mem_append_left _ hy)).step (hpos x (by simp))
      fun y hy => hle y hy x mem_cons_self

variable (m ip order)

/-- The provisional numbers in use. -/
def numbers : Finset Int := (provisional m ip order).toFinset

/-- The number of the host of a PE. -/
def hostId (pe : Nat) : Nat := rank (numbers m ip order) (firstPe m ip order pe : Int)

/-- The PEs of a host. -/
def pesOf (id : Nat) : List Nat := (List.range m.cmiNumPes).filter fun pe =>
    hostId m ip order pe = id

/-- The topology that every process arrives at. -/
def hostMap : CpuTopology where
  nodeIDs := some ((List.range m.cmiNumPes).map fun pe : Nat => (hostId m ip order pe : Int))
  numPes := m.cmiNumPes
  numNodes := (numbers m ip order).card
  bynodes := (List.range (numbers m ip order).card).map (pesOf m ip order)
  supported := true

variable {m ip order} {id : Nat}

theorem first_pe_mem_numbers (h : pe < m.cmiNumPes) :
    (firstPe m ip order pe : Int) ∈ numbers m ip order :=
  mem_toFinset.mpr (mem_map.mpr ⟨pe, mem_range.mpr h, rfl⟩)

theorem host_id_lt (h : pe < m.cmiNumPes) : hostId m ip order pe < (numbers m ip order).card :=
  rank_lt_card (first_pe_mem_numbers h)

/-- The hosts are numbered in the order of their first PEs. -/
theorem num_uniq_nodes_eq :
    CpuTopology.numUniqNodes m
    { CpuTopology.initial m with nodeIDs := some (provisional m ip order) } =
      { hostMap m ip order with bynodes := [] } := by
  have hlen : (provisional m ip order).length = m.cmiNumPes := by
    unfold provisional
    rw [length_map, length_range]
  have hset : ((provisional m ip order).insertionSort (· ≤ ·)).toFinset = numbers m ip order :=
    toFinset_eq_of_perm _ _ (perm_insertionSort _ _)
  obtain ⟨hnum, hmap, -⟩ :=
    scanned_uniq (pairwise_insertionSort (· ≤ ·) (provisional m ip order)) fun x hx => by
      obtain ⟨pe, -, rfl⟩ := mem_map.mp ((mem_insertionSort _).mp hx)
      exact Int.natCast_nonneg _
  rw [hset] at hnum hmap
  have hpos : 0 < (numbers m ip order).card :=
    Finset.card_pos.mpr ⟨_, first_pe_mem_numbers m.num_pes_pos⟩
  have hids : (provisional m ip order).map (fun id =>
        ((uniq ((provisional m ip order).insertionSort (· ≤ ·))).nodemap id : Int)) =
      (range m.cmiNumPes).map fun pe : Nat => (hostId m ip order pe : Int) := by
    nth_rewrite 2 [provisional]
    rw [map_map]
    refine map_congr_left fun pe hpe => ?_
    have hmem : (firstPe m ip order pe : Int) ∈
        (provisional m ip order).insertionSort (· ≤ ·) :=
      (mem_insertionSort _).mpr (mem_map.mpr ⟨pe, hpe, rfl⟩)
    exact congrArg Nat.cast (hmap _ hmem)
  unfold numUniqNodes initial
  simp only [Option.getD_some, take_of_length_le hlen.le, hnum, hids]
  rw [if_neg (by omega), if_neg (by omega)]
  rfl

/-- A PE is added to the list of its host. -/
theorem push_back_eq {h node : Nat} (F : Nat → List Nat) (hlt : node < h) (pe : Nat) :
    CpuTopology.pushBack ((List.range h).map F) node pe =
      some ((List.range h).map fun j => if j = node then F j ++ [pe] else F j) := by
  unfold pushBack
  rw [if_pos (by simpa using hlt)]
  refine congrArg some (ext_getElem? fun j => ?_)
  grind

/-- The loop sorts the PEs by hosts. -/
theorem sort_loop {k : Nat} (hk : k ≤ m.cmiNumPes) :
    (List.range k).foldlM (CpuTopology.sortStep
        ((List.range m.cmiNumPes).map fun pe : Nat => (hostId m ip order pe : Int))
        (numbers m ip order).card) (List.replicate (numbers m ip order).card []) =
      some ((List.range (numbers m ip order).card).map fun id =>
        (List.range k).filter fun pe => hostId m ip order pe = id) := by
  induction k with
  | zero =>
    show some _ = some _
    rw [eq_replicate_of_mem (l := map _ _) ?_, length_map, length_range]
    intro b hb
    obtain ⟨id, -, rfl⟩ := mem_map.mp hb
    rfl
  | succ k ih =>
    have hlt : hostId m ip order k < (numbers m ip order).card := host_id_lt (by omega)
    rw [range_succ, foldlM_append, ih (by omega)]
    show (sortStep _ _ _ k >>= pure) = _
    unfold sortStep
    rw [getElem?_map, getElem?_range (by omega)]
    show ((if 0 ≤ (hostId m ip order k : Int) ∧
      (hostId m ip order k : Int) ≤ (numbers m ip order).card then _ else _) >>= pure) = _
    rw [if_pos (by omega), Int.toNat_natCast, push_back_eq _ hlt]
    refine congrArg some (map_congr_left fun id _ => ?_)
    rw [filter_append]
    by_cases heq : id = hostId m ip order k
    · rw [if_pos heq, filter_cons_of_pos (by simpa using heq.symm), filter_nil]
    · rw [if_neg heq, filter_cons_of_neg (by simpa using Ne.symm heq), filter_nil, append_nil]

/-- The processes that the message has reached have the host map. -/
theorem deliver_all (arrivals : List Nat) :
    arrivals.foldlM (deliver m (provisional m ip order)) (fun _ => .initial m) =
      some fun node => if node ∈ arrivals then hostMap m ip order else .initial m := by
  induction arrivals using reverseRecOn with
  | nil => rfl
  | append_singleton arrivals x ih =>
    rw [foldlM_append, ih]
    show (deliver m _ _ x >>= pure) = _
    unfold deliver
    have hrecv : (if x ∈ arrivals then hostMap m ip order else .initial m).cpuTopoRecvHandler m
        (provisional m ip order) = some (hostMap m ip order) := by
      by_cases hx : x ∈ arrivals
      · rw [if_pos hx]
        rfl
      · rw [if_neg hx]
        show sort m { initial m with nodeIDs := some (provisional m ip order) } = _
        unfold sort
        rw [num_uniq_nodes_eq]
        exact congrArg (fun b => b >>= fun bynodes => some { hostMap m ip order with bynodes })
          (@sort_loop _ _ m ip order _ le_rfl)
    rw [hrecv, Option.map_some]
    refine congrArg some (funext fun node => ?_)
    by_cases heq : node = x
    · subst heq
      rw [Function.update_self, if_pos (mem_append_right _ mem_cons_self)]
    · rw [Function.update_of_ne heq]
      have hiff : node ∈ arrivals ++ [x] ↔ node ∈ arrivals := by simp [heq]
      simp only [hiff]

/-- Every order of merging leads to the host map of that order. -/
theorem gather_eq {v : Merged Nat} (h : v.leaves.Perm (List.range m.cmiNumPes))
    (arrivals : List Nat) :
    gather m ip v arrivals =
      some fun node => if node ∈ arrivals then hostMap m ip v.leaves else .initial m := by
  unfold gather
  rw [message_eq, handler_eq h]
  exact deliver_all arrivals

/-! ## What the numbers mean -/

section Order

variable (horder : order.Perm (List.range m.cmiNumPes)) {pe pe' : Nat}

include horder

/-- The first PE of a host is on the host. -/
theorem first_pe_spec (h : pe < m.cmiNumPes) :
    firstPe m ip order pe < m.cmiNumPes ∧ ipOf m ip (firstPe m ip order pe) = ipOf m ip pe := by
  have hmem : pe ∈ order := horder.mem_iff.mpr (mem_range.mpr h)
  obtain ⟨q, hq⟩ := Option.isSome_iff_exists.mp (find_ip_is_some ip hmem)
  unfold firstPe
  rw [hq]
  exact ⟨mem_range.mp (horder.mem_iff.mp (mem_of_find?_eq_some hq)), by simpa using find?_some hq⟩

/-- Two PEs have the same first PE exactly if they are on the same host. -/
theorem first_pe_eq_iff (h : pe < m.cmiNumPes) (h' : pe' < m.cmiNumPes) :
    firstPe m ip order pe = firstPe m ip order pe' ↔ ipOf m ip pe = ipOf m ip pe' := by
  constructor
  · intro heq
    rw [← (first_pe_spec horder h).2, heq, (first_pe_spec horder h').2]
  · intro heq
    have hmem : pe ∈ order := horder.mem_iff.mpr (mem_range.mpr h)
    obtain ⟨q, hq⟩ := Option.isSome_iff_exists.mp (find_ip_is_some ip hmem)
    unfold firstPe
    rw [← heq, hq]
    rfl

/-- Two PEs have one number exactly when they have one address. -/
theorem host_id_eq_iff (h : pe < m.cmiNumPes) (h' : pe' < m.cmiNumPes) :
    hostId m ip order pe = hostId m ip order pe' ↔ ipOf m ip pe = ipOf m ip pe' := by
  rw [← first_pe_eq_iff horder h h']
  constructor
  · intro heq
    exact Int.natCast_inj.mp (rank_inj (first_pe_mem_numbers h) (first_pe_mem_numbers h') heq)
  · intro heq
    unfold hostId
    rw [heq]

/-- There are as many numbers as addresses. -/
theorem card_numbers : (numbers m ip order).card = ((Finset.range m.numNodes).image ip).card := by
  have hmem : ∀ z, z ∈ numbers m ip order ↔
      ∃ pe < m.cmiNumPes, (firstPe m ip order pe : Int) = z := by
    simp [numbers, provisional]
  have himage : (numbers m ip order).image (fun z => ipOf m ip z.toNat) =
      (Finset.range m.numNodes).image ip := by
    ext a
    rw [Finset.mem_image, Finset.mem_image]
    constructor
    · rintro ⟨z, hz, rfl⟩
      obtain ⟨pe, hpe, rfl⟩ := (hmem z).mp hz
      exact ⟨_, Finset.mem_range.mpr (m.lt_num_pes_iff.mp (first_pe_spec horder hpe).1), rfl⟩
    · rintro ⟨node, hnode, rfl⟩
      have hpe := m.node_first_lt (Finset.mem_range.mp hnode)
      refine ⟨_, (hmem _).mpr ⟨_, hpe, rfl⟩, ?_⟩
      show ipOf m ip (firstPe m ip order (m.cmiNodeFirst node)) = ip node
      rw [(first_pe_spec horder hpe).2]
      unfold ipOf
      rw [m.node_of_node_first]
  rw [← himage, Finset.card_image_of_injOn]
  intro z hz z' hz' heq
  obtain ⟨pe, hpe, rfl⟩ := (hmem z).mp hz
  obtain ⟨pe', hpe', rfl⟩ := (hmem z').mp hz'
  have heq : ipOf m ip (firstPe m ip order pe) = ipOf m ip (firstPe m ip order pe') := heq
  rw [(first_pe_spec horder hpe).2, (first_pe_spec horder hpe').2] at heq
  exact congrArg Nat.cast ((first_pe_eq_iff horder hpe hpe').mpr heq)

end Order

/-- The numbers of the hosts start at 0 and leave nothing out. -/
theorem exists_host_id_iff :
    (∃ pe < m.cmiNumPes, hostId m ip order pe = id) ↔ id < (numbers m ip order).card := by
  constructor
  · rintro ⟨pe, hpe, rfl⟩
    exact host_id_lt hpe
  · intro hid
    obtain ⟨z, hz, hrank⟩ := exists_rank_eq hid
    obtain ⟨pe, hpe, rfl⟩ := mem_map.mp (mem_toFinset.mp hz)
    exact ⟨pe, mem_range.mp hpe, hrank⟩

/-- The PE whose record comes first is the provisional number of its host; for PE 0 that is the
smallest one. -/
theorem host_id_zero (hhead : order.head? = some 0) : hostId m ip order 0 = 0 := by
  have hfirst : firstPe m ip order 0 = 0 := by
    obtain ⟨rest, rfl⟩ := head?_eq_some_iff.mp hhead
    unfold firstPe
    rw [find?_cons_of_pos (by simp)]
    rfl
  unfold hostId
  rw [hfirst]
  refine rank_eq_zero fun z hz => ?_
  obtain ⟨pe, -, rfl⟩ := mem_map.mp (mem_toFinset.mp hz)
  exact Int.natCast_nonneg _

/-! ## The queries -/

theorem mem_pes_of {pe id : Nat} :
    pe ∈ pesOf m ip order id ↔ pe < m.cmiNumPes ∧ hostId m ip order pe = id := by
  unfold pesOf
  rw [mem_filter, mem_range, decide_eq_true_eq]

theorem pes_of_sorted (id : Nat) : (pesOf m ip order id).Pairwise (· < ·) :=
  pairwise_lt_range.filter _

theorem host_map_get_id (h : pe < m.cmiNumPes) :
    ((hostMap m ip order).nodeIDs.getD [])[pe]? = some (hostId m ip order pe : Int) := by
  show ((range m.cmiNumPes).map fun pe : Nat => (hostId m ip order pe : Int))[pe]? = _
  rw [getElem?_map, getElem?_range h]
  rfl

theorem host_map_bynodes (h : id < (numbers m ip order).card) :
    (hostMap m ip order).bynodes[id]? = some (pesOf m ip order id) := by
  show ((range (numbers m ip order).card).map (pesOf m ip order))[id]? = _
  rw [getElem?_map, getElem?_range h]
  rfl

/-- `LrtsRankOf` is the place of a PE among those of its host. -/
theorem lrts_rank_of_spec (ip : Nat → α) (order : List Nat) (h : pe < m.cmiNumPes) :
    ∃ rank, (hostMap m ip order).lrtsRankOf m pe = some rank ∧
      (pesOf m ip order (hostId m ip order pe))[rank]? = some pe := by
  have hget := getElem?_takeWhile_lt (pes_of_sorted (hostId m ip order pe))
    (mem_pes_of.mpr ⟨h, rfl⟩)
  refine ⟨_, ?_, hget⟩
  unfold lrtsRankOf
  rw [host_map_get_id h]
  show ((hostMap m ip order).bynodes[(hostId m ip order pe : Int).toNat]? >>= _) = _
  rw [Int.toNat_natCast, host_map_bynodes (host_id_lt h)]
  exact if_pos hget

/-- The loop of `CmiNodeRankOnPhysicalNode` lists the processes of the PEs once each. -/
theorem nodes_of_spec (pelist : List Nat) :
    (CpuTopology.nodesOf m pelist).Nodup ∧
      ∀ node, node ∈ CpuTopology.nodesOf m pelist ↔ ∃ pe ∈ pelist, m.cmiNodeOf pe = node := by
  induction pelist using reverseRecOn with
  | nil => exact ⟨nodup_nil, fun node => by simp [nodesOf]⟩
  | append_singleton pelist x ih =>
    obtain ⟨hnodup, hmem⟩ := ih
    have hstep : nodesOf m (pelist ++ [x]) =
        if m.cmiNodeOf x ∈ nodesOf m pelist then nodesOf m pelist
        else nodesOf m pelist ++ [m.cmiNodeOf x] := by
      unfold nodesOf
      rw [foldl_append]
      rfl
    rw [hstep]
    split
    · exact ⟨hnodup, by grind⟩
    next hx => exact ⟨concat_eq_append ▸ hnodup.concat hx, by grind⟩

variable (m ip) in
/-- The processes on the host of a process. -/
def hostProcs (node : Nat) : Finset Nat := (Finset.range m.numNodes).filter fun n => ip n = ip node

/-- `CmiNodeRankOnPhysicalNode` is the rank of a process among those of its host. -/
theorem node_rank_on_physical_node_eq (horder : order.Perm (List.range m.cmiNumPes)) {node : Nat}
    (h : node < m.numNodes) :
    (hostMap m ip order).cmiNodeRankOnPhysicalNode m node =
      some (rank (hostProcs m ip node) node) := by
  have hpe := m.node_first_lt h
  obtain ⟨id, hid⟩ : ∃ id, id = hostId m ip order (m.cmiNodeFirst node) := ⟨_, rfl⟩
  obtain ⟨hnodup, hmem⟩ := nodes_of_spec (pesOf m ip order id)
  obtain ⟨nodes, hnodes⟩ : ∃ nodes,
    nodes = (nodesOf m (pesOf m ip order id)).insertionSort (· ≤ ·) := ⟨_, rfl⟩
  have hsorted : nodes.Pairwise (· < ·) := by
    rw [hnodes]
    exact (pairwise_insertionSort (· ≤ ·) _).imp₂ (fun a b hle hne => lt_of_le_of_ne hle hne)
      ((perm_insertionSort _ _).nodup_iff.mpr hnodup)
  have hset : nodes.toFinset = hostProcs m ip node := by
    ext n
    unfold hostProcs
    rw [hnodes, mem_toFinset, mem_insertionSort, hmem, Finset.mem_filter, Finset.mem_range]
    constructor
    · rintro ⟨pe, hmem, rfl⟩
      obtain ⟨hlt, heq⟩ := mem_pes_of.mp hmem
      refine ⟨m.lt_num_pes_iff.mp hlt, ?_⟩
      have hip := (host_id_eq_iff horder hlt hpe).mp (heq.trans hid)
      unfold ipOf at hip
      rw [hip, m.node_of_node_first]
    · rintro ⟨hlt, hip⟩
      refine ⟨m.cmiNodeFirst n, mem_pes_of.mpr ⟨m.node_first_lt hlt, ?_⟩, m.node_of_node_first n⟩
      rw [hid, host_id_eq_iff horder (m.node_first_lt hlt) hpe]
      unfold ipOf
      rw [m.node_of_node_first, m.node_of_node_first, hip]
  have hself : node ∈ nodes := by
    rw [← mem_toFinset, hset]
    exact Finset.mem_filter.mpr ⟨Finset.mem_range.mpr h, rfl⟩
  have hget := getElem?_takeWhile_lt hsorted hself
  unfold cmiNodeRankOnPhysicalNode lrtsNodeOf lrtsPeOnNode
  rw [host_map_get_id hpe, ← hid]
  show (if _ then _ else (hostMap m ip order).bynodes[(id : Int).toNat]?) >>= _ = _
  rw [Int.toNat_natCast, host_map_bynodes (hid ▸ host_id_lt hpe)]
  show (if (pesOf m ip order id).length = 0 then _ else _) = _
  rw [if_neg fun h0 => by
    have := mem_pes_of.mpr ⟨hpe, hid.symm⟩
    rw [length_eq_zero_iff.mp h0] at this
    exact not_mem_nil this]
  rw [← hnodes]
  rw [if_pos hget, length_takeWhile_lt hsorted, hset]
  rfl

/-- Nodes on the same host have the same processes. -/
theorem host_procs_congr {node node' : Nat} (h : ip node = ip node') :
    hostProcs m ip node = hostProcs m ip node' := by
  unfold hostProcs
  rw [h]

/-- Whatever the order in which the records are merged and the message arrives, all processes get
one numbering of the PEs, which tells apart exactly the addresses. The numbers are those below the
number of addresses, and PE 0 has number 0. The lists of PEs by number, `LrtsRankOf` and
`CmiNodeRankOnPhysicalNode` agree with it: the last one numbers the processes of each host in their
order. -/
theorem gather_yields_host_map (m : Machine) (ip : Nat → α) (v : Merged Nat) (arrivals : List Nat)
    (hroot : v.own = 0) (hall : v.leaves.Perm (List.range m.cmiNumPes))
    (harrive : ∀ node < m.numNodes, node ∈ arrivals) :
    ∃ s ids, gather m ip v arrivals = some s ∧
      (∀ node < m.numNodes, (s node).nodeIDs = some ids) ∧
      ids.length = m.cmiNumPes ∧
      (∀ pe < m.cmiNumPes, ∀ pe' < m.cmiNumPes,
        ids[pe]? = ids[pe']? ↔ ip (m.cmiNodeOf pe) = ip (m.cmiNodeOf pe')) ∧
      (∀ id, id ∈ ids ↔ 0 ≤ id ∧ id < ((Finset.range m.numNodes).image ip).card) ∧
      ids[0]? = some 0 ∧
      ∀ node < m.numNodes,
        (∀ id < ((Finset.range m.numNodes).image ip).card, (s node).bynodes[id]? =
          some ((List.range m.cmiNumPes).filter fun pe => ids[pe]? = some (id : Int))) ∧
        (∀ pe < m.cmiNumPes, ∃ id rank : Nat, ids[pe]? = some (id : Int) ∧
          (s node).lrtsRankOf m pe = some rank ∧
          ((s node).bynodes[id]?.bind fun pes => pes[rank]?) = some pe) ∧
        ∃ rankOf : Nat → Nat,
          (∀ n < m.numNodes, (s node).cmiNodeRankOnPhysicalNode m n = some (rankOf n)) ∧
          (∀ n < m.numNodes, ∀ n' < m.numNodes, ip n = ip n' → n < n' → rankOf n < rankOf n') ∧
          ∀ n < m.numNodes, ∀ r,
            r < ((Finset.range m.numNodes).filter fun n' => ip n' = ip n).card ↔
              ∃ n' < m.numNodes, ip n' = ip n ∧ rankOf n' = r := by
  have hids : ∀ {pe}, pe < m.cmiNumPes →
      ((range m.cmiNumPes).map fun pe : Nat => (hostId m ip v.leaves pe : Int))[pe]? =
        some (hostId m ip v.leaves pe : Int) := fun h => host_map_get_id h
  have hhead : v.leaves.head? = some 0 := by
    cases v with
    | node own parts =>
      exact congrArg some hroot
  refine ⟨_, (range m.cmiNumPes).map fun pe : Nat => (hostId m ip v.leaves pe : Int),
    gather_eq hall arrivals, fun node hnode => ?_, ?_, fun pe hpe pe' hpe' => ?_,
    fun id => ?_, ?_, fun node hnode => ?_⟩
  · rw [if_pos (harrive node hnode)]
    rfl
  · rw [length_map, length_range]
  · rw [hids hpe, hids hpe', Option.some_inj, Int.natCast_inj, host_id_eq_iff hall hpe hpe']
    rfl
  · rw [mem_map, ← card_numbers hall]
    constructor
    · rintro ⟨pe, hpe, rfl⟩
      have hlt : hostId m ip v.leaves pe < (numbers m ip v.leaves).card :=
        host_id_lt (mem_range.mp hpe)
      omega
    · rintro ⟨hpos, hlt⟩
      obtain ⟨pe, hpe, heq⟩ := exists_host_id_iff.mpr ((Int.toNat_lt hpos).mpr hlt)
      refine ⟨pe, mem_range.mpr hpe, ?_⟩
      rw [heq, Int.toNat_of_nonneg hpos]
  · rw [hids m.num_pes_pos, host_id_zero hhead]
    rfl
  · rw [if_pos (harrive node hnode)]
    refine ⟨fun id hid => ?_, fun pe hpe => ?_, ?_⟩
    · rw [← card_numbers hall] at hid
      rw [host_map_bynodes hid]
      refine congrArg some (filter_congr fun pe hpe => ?_)
      have hiff := hids (mem_range.mp hpe)
      simp only [hiff, Option.some_inj, Int.natCast_inj]
    · obtain ⟨rank, hrank, hget⟩ := lrts_rank_of_spec ip v.leaves hpe
      refine ⟨_, rank, hids hpe, hrank, ?_⟩
      rw [host_map_bynodes (host_id_lt hpe), Option.bind_some, hget]
    · refine ⟨fun n => rank (hostProcs m ip n) n, fun n hn => node_rank_on_physical_node_eq hall hn,
        fun n hn n' hn' hip hlt => ?_, fun n hn r => ⟨fun hr => ?_, ?_⟩⟩
      · show rank (hostProcs m ip n) n < rank (hostProcs m ip n') n'
        rw [host_procs_congr hip]
        exact rank_lt_rank (Finset.mem_filter.mpr ⟨Finset.mem_range.mpr hn, hip⟩) hlt
      · obtain ⟨n', hn', hrank⟩ := exists_rank_eq hr
        obtain ⟨hlt, hip⟩ := Finset.mem_filter.mp hn'
        refine ⟨n', Finset.mem_range.mp hlt, hip, ?_⟩
        show rank (hostProcs m ip n') n' = r
        rw [host_procs_congr hip]
        exact hrank
      · rintro ⟨n', hn', hip, rfl⟩
        show rank (hostProcs m ip n') n' < (hostProcs m ip n).card
        rw [host_procs_congr hip]
        exact rank_lt_card (Finset.mem_filter.mpr ⟨Finset.mem_range.mpr hn', hip⟩)

/-- Three processes of two PEs each; the first and the last are on one host, and the records of the
second come before those of the last. -/
theorem gather_of_six_pes :
    ∃ s ids, gather ⟨3, 2, by decide, by decide, .lci⟩ (fun node => node % 2)
        (.node 0 [.node 3 [.node 2 []], .node 1 [], .node 4 [.node 5 []]]) [2, 0, 1] = some s ∧
      (∀ node < 3, (s node).nodeIDs = some ids) ∧ ids.length = 6 := by
  obtain ⟨s, ids, hgather, hids, hlen, -⟩ := gather_yields_host_map
    ⟨3, 2, by decide, by decide, .lci⟩ (fun node => node % 2)
    (.node 0 [.node 3 [.node 2 []], .node 1 [], .node 4 [.node 5 []]]) [2, 0, 1] rfl (by decide)
    (by decide)
  exact ⟨s, ids, hgather, hids, hlen⟩

end Reconverse.HostTopology
