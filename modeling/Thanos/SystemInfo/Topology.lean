import Mathlib.Data.List.Perm.Basic
import Thanos.Utils.Types

/-!
# The NUMA topology

`Topology` holds the tables of `system_info::details` that a successful `detect_system` leaves
and that stay fixed afterwards, together with what libnuma answers to the calls made later on.
The tables are total functions; the fields at the end of the structure are the relations
between them that detection establishes (`Numa.topology`), for the allowed nodes and CPUs.
-/

namespace Thanos

/-- The topology tables and the libnuma queries. -/
structure Topology where
  /-- `details::nodes`, the allowed nodes. -/
  nodes : List Node
  /-- `details::cpus`, the allowed CPUs. -/
  cpus : List Cpu
  /-- `details::nodes_by_distance`: input a node, output the nodes sorted by distance. -/
  nodesByDistance : Node → List Node
  /-- `details::cpu_node_map`: input a CPU, output its node. -/
  cpuNodeMap : Cpu → Node
  /-- `details::node_cpu_map`: input a node, output its CPUs. -/
  nodeCpuMap : Node → List Cpu
  /-- `numa_max_node()`. -/
  maxNode : Node
  /-- `numa_distance`. -/
  numaDistance : Node → Node → ℕ
  /-- `numa_node_of_cpu`. -/
  numaNodeOfCpu : Cpu → Node
  /-- `numa_node_to_cpus`, with `none` for the error value. -/
  numaNodeToCpus : Node → Option CpuSet
  cpus_ne_nil : cpus ≠ []
  cpus_nodup : cpus.Nodup
  nodes_nodup : nodes.Nodup
  /-- The distance list of a node is a permutation of the nodes. -/
  nodesByDistance_perm : ∀ n ∈ nodes, (nodesByDistance n).Perm nodes
  /-- The node lists partition the CPUs. -/
  mem_nodeCpuMap : ∀ n ∈ nodes, ∀ c, c ∈ nodeCpuMap n ↔ c ∈ cpus ∧ cpuNodeMap c = n
  nodeCpuMap_nodup : ∀ n ∈ nodes, (nodeCpuMap n).Nodup
  cpuNodeMap_mem : ∀ c ∈ cpus, cpuNodeMap c ∈ nodes
  /-- The table was filled from `numa_node_of_cpu`. -/
  cpuNodeMap_eq : ∀ c ∈ cpus, cpuNodeMap c = numaNodeOfCpu c
  /-- The two libnuma queries agree. -/
  numaNodeOfCpu_of_mem : ∀ n mask, numaNodeToCpus n = some mask →
    ∀ c ∈ mask, numaNodeOfCpu c = n
  /-- An allowed node has CPUs. -/
  numaNodeToCpus_of_mem : ∀ n ∈ nodes, ∃ mask, numaNodeToCpus n = some mask ∧ 0 < mask.size
  /-- The first CPU of a node is recorded under that node. -/
  cpuNodeMap_begin : ∀ n mask c, numaNodeToCpus n = some mask → mask.begin? = some c →
    cpuNodeMap c = n

namespace Topology

variable (T : Topology)

/-- `system_info::num_of_cpus()`. -/
def numOfCpus : ℕ :=
  T.cpus.length

/-- `system_info::num_of_nodes()`. -/
def numOfNodes : ℕ :=
  T.nodes.length

/-- `system_info::num_of_cpus(node)`. -/
def numOfCpusIn (node : Node) : ℕ :=
  (T.nodeCpuMap node).length

/-- `system_info::cpus_per_node()`. -/
def cpusPerNode : ℕ :=
  T.numOfCpus / T.numOfNodes

/-- `system_info::local_distance()`. -/
def localDistance : ℕ :=
  T.numaDistance 0 0

/-- The destinations in the order in which they are searched from a CPU of node `n`: the CPUs
of the closest node first. -/
def cpusByDistance (n : Node) : List Cpu :=
  (T.nodesByDistance n).flatMap T.nodeCpuMap

/-- Every CPU is among the destinations searched from an allowed node, and only the CPUs. -/
theorem mem_cpusByDistance {n : Node} (hn : n ∈ T.nodes) {c : Cpu} :
    c ∈ T.cpusByDistance n ↔ c ∈ T.cpus := by
  simp only [cpusByDistance, List.mem_flatMap, (T.nodesByDistance_perm n hn).mem_iff]
  constructor
  · rintro ⟨node, hnode, hc⟩
    exact ((T.mem_nodeCpuMap node hnode c).mp hc).1
  · intro hc
    have hnode := T.cpuNodeMap_mem c hc
    exact ⟨T.cpuNodeMap c, hnode, (T.mem_nodeCpuMap _ hnode c).mpr ⟨hc, rfl⟩⟩

/-! ### Regular machines -/

private theorem div_eq_of_mem_block {m node c : ℕ} (hm : 0 < m)
    (hc : c ∈ (List.range m).map (node * m + ·)) : c / m = node := by
  obtain ⟨i, hi, rfl⟩ := List.mem_map.mp hc
  rw [Nat.mul_comm, Nat.mul_add_div hm, Nat.div_eq_of_lt (List.mem_range.mp hi), Nat.add_zero]

/-- A machine of `n` nodes with `m` CPUs each, numbered node by node. -/
def regular (n m : ℕ) (hn : 0 < n) (hm : 0 < m) : Topology where
  nodes := List.range n
  cpus := List.range (n * m)
  nodesByDistance node := node :: (List.range n).erase node
  cpuNodeMap c := c / m
  nodeCpuMap node := (List.range m).map (node * m + ·)
  maxNode := n - 1
  numaDistance a b := if a = b then 10 else 21
  numaNodeOfCpu c := c / m
  numaNodeToCpus node :=
    if node < n then some (OrderedSet.insertMany ∅ ((List.range m).map (node * m + ·))) else none
  cpus_ne_nil := by
    have hpos : 0 < n * m := Nat.mul_pos hn hm
    rw [Ne, List.range_eq_nil]
    omega
  cpus_nodup := List.nodup_range
  nodes_nodup := List.nodup_range
  nodesByDistance_perm node hnode := (List.perm_cons_erase hnode).symm
  mem_nodeCpuMap node hnode c := by
    constructor
    · intro hc
      have hdiv : c / m = node := div_eq_of_mem_block hm hc
      refine ⟨List.mem_range.mpr ?_, hdiv⟩
      rw [← Nat.div_lt_iff_lt_mul hm, hdiv]
      exact List.mem_range.mp hnode
    · rintro ⟨-, rfl⟩
      refine List.mem_map.mpr ⟨c % m, List.mem_range.mpr (Nat.mod_lt c hm), ?_⟩
      rw [Nat.mul_comm]
      exact Nat.div_add_mod c m
  nodeCpuMap_nodup node _ := List.nodup_range.map fun _ _ h => Nat.add_left_cancel h
  cpuNodeMap_mem c hc :=
    List.mem_range.mpr ((Nat.div_lt_iff_lt_mul hm).mpr (List.mem_range.mp hc))
  cpuNodeMap_eq _ _ := rfl
  numaNodeOfCpu_of_mem node mask hmask c hc := by
    split_ifs at hmask with hlt
    · obtain rfl := Option.some.inj hmask
      rw [OrderedSet.mem_insertMany] at hc
      exact div_eq_of_mem_block hm (hc.resolve_right OrderedSet.notMem_empty)
  numaNodeToCpus_of_mem node hnode := by
    refine ⟨_, if_pos (List.mem_range.mp hnode), ?_⟩
    refine OrderedSet.size_pos_iff.mpr ⟨node * m + 0, ?_⟩
    rw [OrderedSet.mem_insertMany]
    exact .inl (List.mem_map.mpr ⟨0, List.mem_range.mpr hm, rfl⟩)
  cpuNodeMap_begin node mask c hmask hc := by
    split_ifs at hmask with hlt
    · obtain rfl := Option.some.inj hmask
      have hmem := OrderedSet.mem_of_begin? hc
      rw [OrderedSet.mem_insertMany] at hmem
      exact div_eq_of_mem_block hm (hmem.resolve_right OrderedSet.notMem_empty)

end Topology

end Thanos
