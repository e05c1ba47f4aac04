import Mathlib.Data.List.Sort
import Thanos.Library.Run
import Thanos.SystemInfo.Topology

/-!
# Detection of the system

`detect_system` fills the vectors that the program indexes by CPUs and nodes. Without NUMA
support they are sized by the largest identifier. With NUMA support some of them are sized by
the number of the allowed CPUs and nodes, which is too little if the identifiers have gaps: an
access beyond the end is undefined, and `none` here.

* **UMA** (`detectSystemUMA_indexed`): every CPU is a valid index, whatever the identifiers.
* **NUMA** (`detectSystemNUMA_indexed_iff`): detection succeeds with a valid index for every
  CPU and node exactly when all identifiers are below their number.
* **Tables** (`topology`): detection that succeeds leaves the tables of a topology.
-/

namespace Thanos

/-- What libnuma reports. -/
structure Numa where
  /-- `numa_max_node()`. -/
  maxNode : Node
  /-- `numa_get_mems_allowed()`. -/
  memsAllowed : OrderedSet Node
  /-- `numa_all_cpus_ptr`. -/
  allCpus : CpuSet
  /-- `numa_node_to_cpus`, with `none` for the error value. -/
  nodeToCpus : Node → Option CpuSet
  /-- `numa_node_of_cpu`. -/
  nodeOfCpu : Cpu → Node
  /-- `numa_distance`. -/
  distance : Node → Node → ℕ

/-- The vectors of `system_info::details`. -/
structure Details where
  nodes : List Node
  cpus : List Cpu
  nodesByDistance : List (List Node)
  cpuNodeMap : List Node
  nodeCpuMap : List (List Cpu)
  cpuTidMap : List (OrderedSet Pid)
  nodeTidMap : List (OrderedSet Pid)

section Vectors

variable {α : Type*}

/-- `std::vector::resize(size, value)`. -/
def resize (l : List α) (size : ℕ) (value : α) : List α :=
  l.take size ++ List.replicate (size - l.length) value

/-- `v[i] = value`. -/
def write (l : List α) (i : ℕ) (value : α) : Option (List α) :=
  if i < l.length then some (l.set i value) else none

/-- The loop in which `v[i] = f(i)` for some indices. -/
def fill (f : ℕ → α) (l : List α) (indices : List ℕ) : Option (List α) :=
  indices.foldlM (fun l i => write l i (f i)) l

variable {f : ℕ → α} {l l' : List α} {indices : List ℕ}

@[simp]
theorem length_resize {size : ℕ} {value : α} : (resize l size value).length = size := by
  rw [resize, List.length_append, List.length_take, List.length_replicate]
  omega

/-- What a loop of writes leaves: a vector of the same size with the values written. -/
structure Filled (f : ℕ → α) (l l' : List α) (indices : List ℕ) : Prop where
  length_eq : l'.length = l.length
  written : ∀ i ∈ indices, l'[i]? = some (f i)
  kept : ∀ i, i ∉ indices → l'[i]? = l[i]?

/-- The loop is defined if all indices are valid, -/
theorem filled_of_lt (h : ∀ i ∈ indices, i < l.length) :
    ∃ l', fill f l indices = some l' ∧ Filled f l l' indices := by
  induction indices generalizing l with
  | nil => exact ⟨l, rfl, rfl, by simp, fun _ _ => rfl⟩
  | cons i indices ih =>
    obtain ⟨hi, hrest⟩ := List.forall_mem_cons.mp h
    have hwrite : write l i (f i) = some (l.set i (f i)) := if_pos hi
    obtain ⟨l', hfill, hlength, hwritten, hkept⟩ := @ih (l.set i (f i)) fun j hj => by
      rw [List.length_set]
      exact hrest j hj
    refine ⟨l', ?_, hlength.trans List.length_set, fun j hj => ?_, fun j hj => ?_⟩
    · rw [fill, List.foldlM_cons, hwrite]
      exact hfill
    · by_cases hmem : j ∈ indices
      · exact hwritten j hmem
      · obtain rfl := (List.mem_cons.mp hj).resolve_right hmem
        rw [hkept j hmem, List.getElem?_set_self hi]
    · rw [List.mem_cons, not_or] at hj
      rw [hkept j hj.2, List.getElem?_set_ne (Ne.symm hj.1)]

/-- and only then. -/
theorem lt_of_fill (h : fill f l indices = some l') : ∀ i ∈ indices, i < l.length := by
  induction indices generalizing l with
  | nil => simp
  | cons i indices ih =>
    rw [fill, List.foldlM_cons] at h
    obtain ⟨next, hwrite, hfill⟩ := Option.bind_eq_some_iff.mp h
    rw [write] at hwrite
    split_ifs at hwrite with hi
    obtain rfl := Option.some.inj hwrite
    refine List.forall_mem_cons.mpr ⟨hi, fun j hj => ?_⟩
    rw [← List.length_set (a := f i)]
    exact ih hfill j hj

/-- What a loop of writes that has succeeded leaves. -/
theorem filled_of_fill (h : fill f l indices = some l') : Filled f l l' indices := by
  obtain ⟨l'', hfill, hfilled⟩ := filled_of_lt (lt_of_fill h)
  obtain rfl := Option.some.inj (h.symm.trans hfill)
  exact hfilled

end Vectors

namespace Numa

variable (m : Numa)

/-- `allowed_nodes`. -/
def allowedNodes : List Node :=
  m.memsAllowed.toList

/-- `allowed_cpus`. -/
def allowedCpus : List Cpu :=
  m.allCpus.toList

/-- `cpus_from_node`. -/
def cpusFromNode (node : Node) : List Cpu :=
  match m.nodeToCpus node with
  | none => []
  | some cpus => cpus.toList.filter fun cpu => cpu ∈ m.allowedCpus

/-- The nodes sorted by their distance from a node; nodes at the same distance stay in their
order, as in a multimap. -/
def sortedByDistance (node : Node) : List Node :=
  m.allowedNodes.insertionSort fun node1 node2 => m.distance node node1 ≤ m.distance node node2

/-- The loop that fills `node_cpu_map` and stops at a node without CPUs. -/
def fillNodeCpuMap : List Node → List (List Cpu) → Option (Bool × List (List Cpu))
  | [], nodeCpuMap => some (true, nodeCpuMap)
  | node :: nodes, nodeCpuMap =>
    (write nodeCpuMap node (m.cpusFromNode node)).bind fun nodeCpuMap =>
      if (m.cpusFromNode node).isEmpty then some (false, nodeCpuMap)
      else fillNodeCpuMap nodes nodeCpuMap

/-- `detect_system_NUMA`. -/
def detectSystemNUMA (d : Details) : Option (Bool × Details) :=
  let nodes := m.allowedNodes
  let cpus := m.allowedCpus
  (m.fillNodeCpuMap nodes (resize d.nodeCpuMap (m.maxNode + 1) [])).bind fun (ok, nodeCpuMap) =>
    let d := { d with nodes := nodes, cpus := cpus, nodeCpuMap := nodeCpuMap }
    if ok then
      (fill m.nodeOfCpu (resize d.cpuNodeMap cpus.length 0) cpus).bind fun cpuNodeMap =>
        (fill m.sortedByDistance (resize d.nodesByDistance nodes.length []) nodes).map
          fun nodesByDistance =>
            (true,
              { d with
                cpuNodeMap := cpuNodeMap
                nodesByDistance := nodesByDistance
                cpuTidMap := resize d.cpuTidMap cpus.length ∅
                nodeTidMap := resize d.nodeTidMap nodes.length ∅ })
    else some (false, d)

/-- `max_cpu()`, which looks for the largest allowed CPU. -/
def maxCpu : Option Cpu :=
  m.allowedCpus.max?

/-- `detect_system_UMA`. -/
def detectSystemUMA (d : Details) : Option (Bool × Details) :=
  let cpus := m.allowedCpus
  m.maxCpu.bind fun maxCpu =>
    (write (resize d.nodeCpuMap (m.maxNode + 1) []) 0 cpus).bind fun nodeCpuMap =>
      (fill (fun _ => 0) (resize d.cpuNodeMap (maxCpu + 1) 0) cpus).bind fun cpuNodeMap =>
        (write (resize d.nodesByDistance (m.maxNode + 1) []) 0 [0]).map fun nodesByDistance =>
          (true,
            { nodes := [0]
              cpus := cpus
              nodesByDistance := nodesByDistance
              cpuNodeMap := cpuNodeMap
              nodeCpuMap := nodeCpuMap
              cpuTidMap := resize d.cpuTidMap (maxCpu + 1) ∅
              nodeTidMap := resize d.nodeTidMap (m.maxNode + 1) ∅ })

/-- A topology that libnuma can report: there are allowed nodes, each with an allowed CPU, and
every allowed CPU is on one of them; `numa_max_node` is the largest node of the system. -/
structure Reportable : Prop where
  exists_node : 0 < m.memsAllowed.size
  le_maxNode : ∀ node ∈ m.memsAllowed, node ≤ m.maxNode
  exists_cpu : ∀ node ∈ m.memsAllowed, ∃ cpus, m.nodeToCpus node = some cpus ∧
    ∃ cpu ∈ cpus, cpu ∈ m.allCpus
  nodeOfCpu_mem : ∀ cpu ∈ m.allCpus, m.nodeOfCpu cpu ∈ m.memsAllowed

/-- The allowed CPUs and nodes are valid indices of the vectors, and the nodes are sorted by
distance from every allowed node. -/
structure Indexed (d : Details) : Prop where
  cpuNodeMap : ∀ cpu ∈ m.allowedCpus, cpu < d.cpuNodeMap.length
  cpuTidMap : ∀ cpu ∈ m.allowedCpus, cpu < d.cpuTidMap.length
  nodeCpuMap : ∀ node ∈ m.allowedNodes, node < d.nodeCpuMap.length
  nodeTidMap : ∀ node ∈ m.allowedNodes, node < d.nodeTidMap.length
  nodesByDistance : ∀ node ∈ m.allowedNodes, ∃ nodes, d.nodesByDistance[node]? = some nodes ∧
    nodes.Perm m.allowedNodes ∧
    nodes.Pairwise fun node1 node2 => m.distance node node1 ≤ m.distance node node2

variable {m} {d : Details}

theorem Reportable.cpusFromNode_ne_nil (hm : m.Reportable) {node : Node}
    (hnode : node ∈ m.memsAllowed) : (m.cpusFromNode node).isEmpty = false := by
  obtain ⟨cpus, hcpus, cpu, hcpu, hallowed⟩ := hm.exists_cpu node hnode
  rw [List.isEmpty_eq_false_iff_exists_mem]
  refine ⟨cpu, ?_⟩
  simp only [cpusFromNode, hcpus, List.mem_filter, decide_eq_true_eq]
  exact ⟨hcpu, hallowed⟩

/-- If every node has a CPU, the first loop of detection is a loop of writes. -/
theorem fillNodeCpuMap_eq {nodes : List Node} {nodeCpuMap : List (List Cpu)}
    (h : ∀ node ∈ nodes, (m.cpusFromNode node).isEmpty = false) :
    m.fillNodeCpuMap nodes nodeCpuMap =
      (fill m.cpusFromNode nodeCpuMap nodes).map fun nodeCpuMap => (true, nodeCpuMap) := by
  induction nodes generalizing nodeCpuMap with
  | nil => rfl
  | cons node nodes ih =>
    obtain ⟨hnode, hrest⟩ := List.forall_mem_cons.mp h
    rw [fillNodeCpuMap, fill, List.foldlM_cons]
    cases hwrite : write nodeCpuMap node (m.cpusFromNode node) with
    | none => rfl
    | some next =>
      rw [Option.bind_some, hnode]
      exact ih hrest

theorem sortedByDistance_spec {node : Node} :
    (m.sortedByDistance node).Perm m.allowedNodes ∧
      (m.sortedByDistance node).Pairwise fun node1 node2 =>
        m.distance node node1 ≤ m.distance node node2 := by
  refine ⟨List.perm_insertionSort _ _, ?_⟩
  have htotal : Std.Total fun node1 node2 => m.distance node node1 ≤ m.distance node node2 :=
    ⟨fun node1 node2 => le_total _ _⟩
  have htrans : IsTrans Node fun node1 node2 => m.distance node node1 ≤ m.distance node node2 :=
    ⟨fun _ _ _ => le_trans⟩
  exact List.pairwise_insertionSort _ _

/-- Detection is defined if all identifiers are below their number, and then the vectors are
filled. -/
theorem exists_detectSystemNUMA (hm : m.Reportable) (d : Details)
    (hcpus : ∀ cpu ∈ m.allowedCpus, cpu < m.allowedCpus.length)
    (hnodes : ∀ node ∈ m.allowedNodes, node < m.allowedNodes.length) :
    ∃ d', m.detectSystemNUMA d = some (true, d') ∧ m.Indexed d' := by
  have hne : ∀ node ∈ m.allowedNodes, (m.cpusFromNode node).isEmpty = false :=
    fun node hnode => hm.cpusFromNode_ne_nil hnode
  have hmax : ∀ node ∈ m.allowedNodes, node < m.maxNode + 1 :=
    fun node hnode => Nat.lt_succ_of_le (hm.le_maxNode node hnode)
  obtain ⟨nodeCpuMap, hnodeCpuMap, hlength, -, -⟩ := filled_of_lt (f := m.cpusFromNode)
    (l := resize d.nodeCpuMap (m.maxNode + 1) []) (by simpa using hmax)
  obtain ⟨cpuNodeMap, hcpuNodeMap, hlength', -, -⟩ := filled_of_lt (f := m.nodeOfCpu)
    (l := resize d.cpuNodeMap m.allowedCpus.length 0) (by simpa using hcpus)
  obtain ⟨nodesByDistance, hnodesByDistance, -, hwritten, -⟩ := filled_of_lt
    (f := m.sortedByDistance) (l := resize d.nodesByDistance m.allowedNodes.length [])
    (by simpa using hnodes)
  rw [length_resize] at hlength hlength'
  refine ⟨{
      nodes := m.allowedNodes
      cpus := m.allowedCpus
      nodesByDistance := nodesByDistance
      cpuNodeMap := cpuNodeMap
      nodeCpuMap := nodeCpuMap
      cpuTidMap := resize d.cpuTidMap m.allowedCpus.length ∅
      nodeTidMap := resize d.nodeTidMap m.allowedNodes.length ∅ }, ?_, ?_⟩
  · simp only [detectSystemNUMA, fillNodeCpuMap_eq hne, hnodeCpuMap, hcpuNodeMap,
      hnodesByDistance, Option.map_some, Option.bind_some, if_true]
  · refine ⟨?_, ?_, ?_, ?_, fun node hnode => ?_⟩
    · simpa [hlength'] using hcpus
    · simpa using hcpus
    · simpa [hlength] using hmax
    · simpa using hnodes
    · exact ⟨m.sortedByDistance node, hwritten node hnode, sortedByDistance_spec⟩

/-- **NUMA.** -/
theorem detectSystemNUMA_indexed_iff (hm : m.Reportable) (d : Details) :
    (∃ d', m.detectSystemNUMA d = some (true, d') ∧ m.Indexed d') ↔
      (∀ cpu ∈ m.allCpus, cpu < m.allCpus.size) ∧
        ∀ node ∈ m.memsAllowed, node < m.memsAllowed.size := by
  refine ⟨?_, fun h => exists_detectSystemNUMA hm d h.1 h.2⟩
  rintro ⟨d', hdetect, -⟩
  -- the loops of writes that have succeeded had valid indices only
  obtain ⟨⟨ok, nodeCpuMap⟩, -, hdetect⟩ := Option.bind_eq_some_iff.mp hdetect
  dsimp only at hdetect
  split_ifs at hdetect
  · obtain ⟨cpuNodeMap, hcpuNodeMap, hdetect⟩ := Option.bind_eq_some_iff.mp hdetect
    obtain ⟨nodesByDistance, hnodesByDistance, -⟩ := Option.map_eq_some_iff.mp hdetect
    have hcpus := lt_of_fill hcpuNodeMap
    have hnodes := lt_of_fill hnodesByDistance
    rw [length_resize] at hcpus hnodes
    exact ⟨hcpus, hnodes⟩
  · simp at hdetect

/-- Two nodes with two CPUs each; only one CPU of the first node is allowed. -/
def restricted (cpu : Cpu) : Numa where
  maxNode := 1
  memsAllowed := {0}
  allCpus := {cpu}
  nodeToCpus node := if node < 2 then some {2 * node, 2 * node + 1} else none
  nodeOfCpu cpu := cpu / 2
  distance a b := if a = b then 10 else 21

theorem reportable_restricted {cpu : ℕ} (hcpu : cpu < 2) : (restricted cpu).Reportable := by
  refine ⟨Nat.one_pos, fun node hnode => ?_, fun node hnode => ?_, fun c hc => ?_⟩
  · obtain rfl := OrderedSet.mem_singleton.mp hnode
    exact Nat.zero_le _
  · obtain rfl := OrderedSet.mem_singleton.mp hnode
    refine ⟨{0, 1}, rfl, cpu, ?_, OrderedSet.mem_singleton.mpr rfl⟩
    obtain rfl | rfl : cpu = 0 ∨ cpu = 1 := by omega
    · decide
    · decide
  · obtain rfl := OrderedSet.mem_singleton.mp hc
    exact OrderedSet.mem_singleton.mpr (Nat.div_eq_of_lt hcpu)

/-- The vectors before detection. -/
def noDetails : Details :=
  ⟨[], [], [], [], [], [], []⟩

/-- With CPU 0 allowed alone, detection succeeds. -/
theorem detectSystemNUMA_indexed_iff_restricted :
    ∃ d', (restricted 0).detectSystemNUMA noDetails = some (true, d') ∧
      (restricted 0).Indexed d' :=
  (detectSystemNUMA_indexed_iff (reportable_restricted Nat.two_pos) noDetails).mpr (by decide)

/-- With CPU 1 allowed alone, `cpu_node_map` has one entry and is written at index 1. -/
theorem not_detectSystemNUMA_indexed :
    ¬ ∀ m : Numa, m.Reportable → ∀ d : Details,
      ∃ d', m.detectSystemNUMA d = some (true, d') ∧ m.Indexed d' := by
  intro h
  obtain ⟨d', hdetect, -⟩ := h (restricted 1) (reportable_restricted Nat.one_lt_two) noDetails
  have hnone : (restricted 1).detectSystemNUMA noDetails = none := by decide
  rw [hnone] at hdetect
  exact absurd hdetect (by simp)

/-! ### The tables -/

/-- What libnuma answers fits together: it finds a CPU on the node that lists it, and the first CPU
of a node is allowed. -/
structure Consistent (m : Numa) : Prop extends m.Reportable where
  nodeOfCpu_of_mem : ∀ node cpus, m.nodeToCpus node = some cpus →
    ∀ cpu ∈ cpus, m.nodeOfCpu cpu = node
  mem_of_nodeOfCpu : ∀ cpu ∈ m.allCpus, ∀ cpus, m.nodeToCpus (m.nodeOfCpu cpu) = some cpus →
    cpu ∈ cpus
  begin_mem : ∀ node cpus cpu, m.nodeToCpus node = some cpus → cpus.begin? = some cpu →
    cpu ∈ m.allCpus

/-- What detection writes for the allowed CPUs and nodes. -/
structure Detected (m : Numa) (d : Details) : Prop where
  nodes : d.nodes = m.allowedNodes
  cpus : d.cpus = m.allowedCpus
  cpuNodeMap : ∀ cpu ∈ m.allowedCpus, d.cpuNodeMap[cpu]? = some (m.nodeOfCpu cpu)
  nodeCpuMap : ∀ node ∈ m.allowedNodes, d.nodeCpuMap[node]? = some (m.cpusFromNode node)
  nodesByDistance : ∀ node ∈ m.allowedNodes,
    d.nodesByDistance[node]? = some (m.sortedByDistance node)

variable {d' : Details}

theorem detected_of_detectSystemNUMA (hm : m.Reportable)
    (h : m.detectSystemNUMA d = some (true, d')) : m.Detected d' := by
  have hne : ∀ node ∈ m.allowedNodes, (m.cpusFromNode node).isEmpty = false :=
    fun node hnode => hm.cpusFromNode_ne_nil hnode
  rw [detectSystemNUMA, fillNodeCpuMap_eq hne] at h
  obtain ⟨r, hr, h⟩ := Option.bind_eq_some_iff.mp h
  obtain ⟨nodeCpuMap, hnodeCpuMap, rfl⟩ := Option.map_eq_some_iff.mp hr
  simp only [if_true] at h
  obtain ⟨cpuNodeMap, hcpuNodeMap, h⟩ := Option.bind_eq_some_iff.mp h
  obtain ⟨nodesByDistance, hnodesByDistance, heq⟩ := Option.map_eq_some_iff.mp h
  obtain ⟨-, rfl⟩ := Prod.mk.inj heq
  exact ⟨rfl, rfl, (filled_of_fill hcpuNodeMap).written, (filled_of_fill hnodeCpuMap).written,
    (filled_of_fill hnodesByDistance).written⟩

theorem mem_cpusFromNode (hm : m.Consistent) {node : Node} (hnode : node ∈ m.memsAllowed)
    {cpu : Cpu} : cpu ∈ m.cpusFromNode node ↔ cpu ∈ m.allCpus ∧ m.nodeOfCpu cpu = node := by
  obtain ⟨cpus, hcpus, -⟩ := hm.exists_cpu node hnode
  simp only [cpusFromNode, hcpus, List.mem_filter, decide_eq_true_eq]
  constructor
  · exact fun ⟨hmem, hallowed⟩ => ⟨hallowed, hm.nodeOfCpu_of_mem node cpus hcpus cpu hmem⟩
  · rintro ⟨hallowed, rfl⟩
    exact ⟨hm.mem_of_nodeOfCpu cpu hallowed cpus hcpus, hallowed⟩

/-- **Tables.** The topology that detection leaves, if it succeeds. -/
def topology (m : Numa) (hm : m.Consistent) (h : m.detectSystemNUMA d = some (true, d')) :
    Topology where
  nodes := d'.nodes
  cpus := d'.cpus
  nodesByDistance node := d'.nodesByDistance[node]?.getD []
  cpuNodeMap cpu := d'.cpuNodeMap[cpu]?.getD 0
  nodeCpuMap node := d'.nodeCpuMap[node]?.getD []
  maxNode := m.maxNode
  numaDistance := m.distance
  numaNodeOfCpu := m.nodeOfCpu
  numaNodeToCpus := m.nodeToCpus
  cpus_ne_nil := by
    have hd := detected_of_detectSystemNUMA hm.toReportable h
    obtain ⟨node, hnode⟩ := OrderedSet.size_pos_iff.mp hm.exists_node
    obtain ⟨-, -, cpu, -, hcpu⟩ := hm.exists_cpu node hnode
    rw [hd.cpus]
    exact List.ne_nil_of_mem hcpu
  cpus_nodup := by
    rw [(detected_of_detectSystemNUMA hm.toReportable h).cpus]
    exact m.allCpus.increasing.imp ne_of_lt
  nodes_nodup := by
    rw [(detected_of_detectSystemNUMA hm.toReportable h).nodes]
    exact m.memsAllowed.increasing.imp ne_of_lt
  nodesByDistance_perm node hnode := by
    have hd := detected_of_detectSystemNUMA hm.toReportable h
    rw [hd.nodes] at hnode ⊢
    rw [hd.nodesByDistance node hnode]
    exact sortedByDistance_spec.1
  mem_nodeCpuMap node hnode cpu := by
    have hd := detected_of_detectSystemNUMA hm.toReportable h
    rw [hd.nodes] at hnode
    rw [hd.nodeCpuMap node hnode, hd.cpus, Option.getD_some, mem_cpusFromNode hm hnode]
    refine and_congr_right fun hcpu => ?_
    rw [hd.cpuNodeMap cpu hcpu, Option.getD_some]
  nodeCpuMap_nodup node hnode := by
    have hd := detected_of_detectSystemNUMA hm.toReportable h
    rw [hd.nodes] at hnode
    rw [hd.nodeCpuMap node hnode, Option.getD_some, cpusFromNode]
    cases m.nodeToCpus node with
    | none => exact List.nodup_nil
    | some cpus => exact (cpus.increasing.imp ne_of_lt).filter _
  cpuNodeMap_mem cpu hcpu := by
    have hd := detected_of_detectSystemNUMA hm.toReportable h
    rw [hd.cpus] at hcpu
    rw [hd.nodes, hd.cpuNodeMap cpu hcpu]
    exact hm.nodeOfCpu_mem cpu hcpu
  cpuNodeMap_eq cpu hcpu := by
    have hd := detected_of_detectSystemNUMA hm.toReportable h
    rw [hd.cpus] at hcpu
    rw [hd.cpuNodeMap cpu hcpu, Option.getD_some]
  numaNodeOfCpu_of_mem := hm.nodeOfCpu_of_mem
  numaNodeToCpus_of_mem node hnode := by
    rw [(detected_of_detectSystemNUMA hm.toReportable h).nodes] at hnode
    obtain ⟨cpus, hcpus, cpu, hcpu, -⟩ := hm.exists_cpu node hnode
    exact ⟨cpus, hcpus, OrderedSet.size_pos_iff.mpr ⟨cpu, hcpu⟩⟩
  cpuNodeMap_begin node cpus cpu hcpus hbegin := by
    have hd := detected_of_detectSystemNUMA hm.toReportable h
    rw [hd.cpuNodeMap cpu (hm.begin_mem node cpus cpu hcpus hbegin), Option.getD_some]
    exact hm.nodeOfCpu_of_mem node cpus hcpus cpu (OrderedSet.mem_of_begin? hbegin)

/-- **UMA.** Without NUMA support detection succeeds for all identifiers of CPUs. -/
theorem detectSystemUMA_indexed (hcpus : 0 < m.allCpus.size) (d : Details) :
    ∃ d', m.detectSystemUMA d = some (true, d') ∧
      (∀ cpu ∈ m.allowedCpus, cpu < d'.cpuNodeMap.length ∧ cpu < d'.cpuTidMap.length) ∧
      0 < d'.nodeCpuMap.length ∧ 0 < d'.nodeTidMap.length ∧ d'.nodesByDistance[0]? = some [0] := by
  obtain ⟨maxCpu, hmaxCpu⟩ : ∃ maxCpu, m.maxCpu = some maxCpu :=
    Option.isSome_iff_exists.mp (List.isSome_max?_of_ne_nil (List.ne_nil_of_length_pos hcpus))
  have hle : ∀ cpu ∈ m.allowedCpus, cpu < maxCpu + 1 := fun cpu hcpu =>
    Nat.lt_succ_of_le ((List.max?_le_iff hmaxCpu).mp le_rfl cpu hcpu)
  obtain ⟨cpuNodeMap, hcpuNodeMap, hlength, -, -⟩ := filled_of_lt (f := fun _ => 0)
    (l := resize d.cpuNodeMap (maxCpu + 1) 0) (by simpa using hle)
  rw [length_resize] at hlength
  -- node 0 is a valid index, as the vectors have an entry for the largest node
  have hzero {α : Type} (l : List α) (value value' : α) :
      write (resize l (m.maxNode + 1) value) 0 value' =
        some ((resize l (m.maxNode + 1) value).set 0 value') :=
    if_pos (by rw [length_resize]; exact Nat.succ_pos _)
  refine ⟨{
      nodes := [0]
      cpus := m.allowedCpus
      nodesByDistance := (resize d.nodesByDistance (m.maxNode + 1) []).set 0 [0]
      cpuNodeMap := cpuNodeMap
      nodeCpuMap := (resize d.nodeCpuMap (m.maxNode + 1) []).set 0 m.allowedCpus
      cpuTidMap := resize d.cpuTidMap (maxCpu + 1) ∅
      nodeTidMap := resize d.nodeTidMap (m.maxNode + 1) ∅ }, ?_, fun cpu hcpu => ?_, ?_, ?_, ?_⟩
  · simp only [detectSystemUMA, hmaxCpu, hzero, hcpuNodeMap, Option.bind_some, Option.map_some]
  · simpa [hlength] using hle cpu hcpu
  · simp
  · simp
  · rw [List.getElem?_set_self]
    rw [length_resize]
    exact Nat.succ_pos _

end Numa

end Thanos
