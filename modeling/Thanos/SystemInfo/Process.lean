import Mathlib.Logic.Function.Basic
import Thanos.SystemInfo.Topology

/-!
# Processes and their affinity

`Kernel` is the part of the operating system that answers affinity calls: the mask last
installed for every thread and, for the `k`-th call, whether it is granted. `Process` holds the
fields of `process` that the placement of threads reads or writes, with the operations that
pin and unpin it. An operation returns its success, the process and the kernel afterwards.

What an affinity operation can do is said once for each of them (`Process.pin_cases`,
`Process.pinNode_cases`, `Process.unpin_cases`).
-/

namespace Thanos

/-! ### Affinity calls -/

/-- The operating system as far as affinity calls see it. -/
structure Kernel where
  /-- Whether the `k`-th affinity call is granted. -/
  outcome : ℕ → Bool
  /-- The number of affinity calls issued so far. -/
  calls : ℕ
  /-- The affinity mask last installed for a thread. -/
  affinity : Pid → CpuSet
  /-- The affinity mask of the profiler itself, the default of its children. -/
  profilerAffinity : CpuSet

namespace Kernel

variable (k : Kernel) (pid : Pid) (mask : CpuSet)

/-- The next affinity call with this mask is granted; an empty mask never is. -/
def grants : Bool :=
  k.outcome k.calls && decide (0 < mask.size)

/-- The kernel after a call that was refused. -/
def refused : Kernel :=
  { k with calls := k.calls + 1 }

/-- The kernel after a call that was granted. -/
def granted : Kernel :=
  { k with calls := k.calls + 1, affinity := Function.update k.affinity pid mask }

/-- `sched_setaffinity`. -/
def schedSetaffinity : Bool × Kernel :=
  if k.grants mask then (true, k.granted pid mask) else (false, k.refused)

@[simp] theorem refused_affinity : k.refused.affinity = k.affinity := rfl

@[simp] theorem refused_profilerAffinity : k.refused.profilerAffinity = k.profilerAffinity := rfl

@[simp] theorem granted_profilerAffinity :
    (k.granted pid mask).profilerAffinity = k.profilerAffinity := rfl

@[simp] theorem refused_outcome : k.refused.outcome = k.outcome := rfl

@[simp] theorem refused_calls : k.refused.calls = k.calls + 1 := rfl

@[simp] theorem granted_outcome : (k.granted pid mask).outcome = k.outcome := rfl

@[simp] theorem granted_calls : (k.granted pid mask).calls = k.calls + 1 := rfl

@[simp] theorem granted_affinity_self : (k.granted pid mask).affinity pid = mask :=
  Function.update_self ..

theorem granted_affinity_of_ne {t : Pid} (h : t ≠ pid) :
    (k.granted pid mask).affinity t = k.affinity t :=
  Function.update_of_ne h ..

@[simp]
theorem grants_singleton (cpu : Cpu) : k.grants {cpu} = k.outcome k.calls := by
  have hsize : 0 < ({cpu} : CpuSet).size :=
    OrderedSet.size_pos_iff.mpr ⟨cpu, OrderedSet.mem_singleton.mpr rfl⟩
  rw [grants, decide_eq_true hsize, Bool.and_true]

variable {k mask} in
theorem size_pos_of_grants (h : k.grants mask = true) : 0 < mask.size := by
  rw [grants, Bool.and_eq_true, decide_eq_true_eq] at h
  exact h.2

end Kernel

/-! ### Processes -/

/-- What one read of `/proc/PID/stat` reports to the process. The portion of CPU time used is
derived from the times in the file and from the clock. -/
structure Stat (R : Type) where
  /-- The state of the process. -/
  state : Char
  /-- The process identifier of the parent. -/
  ppid : Pid
  /-- The CPU number last executed on. -/
  processor : Cpu
  /-- The portion of CPU time used. -/
  cpuUse : R

/-- What the constructor of a process finds out about it. -/
structure ProcInfo (R : Type) where
  parent : Option Pid
  migratable : Bool
  lwp : Bool
  /-- The first read of the stat file. -/
  stat : Stat R

/-- A process, as far as the placement of threads is concerned. -/
structure Process (R : Type) where
  /-- The process the constructor was given as parent. -/
  parent : Option Pid
  migratable : Bool
  /-- The affinity has been set by the profiler. -/
  pinned : Bool
  /-- Is a lightweight process (a thread). -/
  lwp : Bool
  state : Char
  ppid : Pid
  /-- CPU number last executed on. -/
  processor : Cpu
  /-- CPU number pinned on. -/
  pinnedProcessor : Cpu
  /-- NUMA node of `processor`. -/
  numaNode : Node
  /-- NUMA node of `pinnedProcessor`. -/
  pinnedNumaNode : Node
  /-- Portion of CPU time used. -/
  cpuUse : R

namespace Process

variable {R : Type} (T : Topology) (pid : Pid)

/-- `process::read_stat_file`: the pinned CPU and node follow the last-run ones as long as the
process is not pinned. -/
def readStatFile (p : Process R) (st : Stat R) : Process R :=
  let node := T.numaNodeOfCpu st.processor
  let p := { p with
    state := st.state, ppid := st.ppid, processor := st.processor, numaNode := node,
    cpuUse := st.cpuUse }
  if p.pinned then p
  else { p with pinnedProcessor := st.processor, pinnedNumaNode := node }

/-- The constructor: an unpinned process with the data of its first read. -/
def new (info : ProcInfo R) : Process R :=
  let node := T.numaNodeOfCpu info.stat.processor
  { parent := info.parent
    migratable := info.migratable
    pinned := false
    lwp := info.lwp
    state := info.stat.state
    ppid := info.stat.ppid
    processor := info.stat.processor
    pinnedProcessor := info.stat.processor
    numaNode := node
    pinnedNumaNode := node
    cpuUse := info.stat.cpuUse }

/-- The process after the affinity call of `pin` was granted. The node recorded is that of the
CPU last executed on. -/
def onCpu (p : Process R) (cpu : Cpu) : Process R :=
  { p with
    pinned := true, pinnedProcessor := cpu, pinnedNumaNode := T.numaNodeOfCpu p.processor }

/-- The process after the affinity call of `pin_node` was granted: it counts as pinned to the
first CPU of the mask. -/
def onNode (p : Process R) (node : Node) (mask : CpuSet) : Process R :=
  { p with
    pinned := true, pinnedNumaNode := node,
    pinnedProcessor := mask.begin?.getD p.pinnedProcessor }

/-- `process::pin(cpu)`. No call is issued for a pinned process that last ran on `cpu`. -/
def pin (p : Process R) (cpu : Cpu) (k : Kernel) : Bool × Process R × Kernel :=
  if cpu = p.processor ∧ p.pinned = true then (true, p, k)
  else
    match k.schedSetaffinity pid {cpu} with
    | (false, k) => (false, p, k)
    | (true, k) => (true, p.onCpu T cpu, k)

/-- `process::pin()`. -/
def pinSelf (p : Process R) (k : Kernel) : Bool × Process R × Kernel :=
  p.pin T pid p.pinnedProcessor k

/-- `process::pin_node(node)`. -/
def pinNode (p : Process R) (node : Node) (k : Kernel) : Bool × Process R × Kernel :=
  match T.numaNodeToCpus node with
  | none => (false, p, k)
  | some mask =>
    match k.schedSetaffinity pid mask with
    | (false, k) => (false, p, k)
    | (true, k) => (true, p.onNode node mask, k)

/-- `process::pin_node()`. -/
def pinNodeSelf (p : Process R) (k : Kernel) : Bool × Process R × Kernel :=
  p.pinNode T pid p.pinnedNumaNode k

/-- `process::unpin`: the mask of the profiler is installed for a pinned process. The process
itself is not changed. -/
def unpin (p : Process R) (k : Kernel) : Bool × Kernel :=
  if p.pinned then k.schedSetaffinity pid k.profilerAffinity else (true, k)

/-! ### What the operations do -/

variable {T pid} {p : Process R} {k : Kernel} {st : Stat R}

@[simp] theorem readStatFile_pinned : (p.readStatFile T st).pinned = p.pinned := by
  simp only [readStatFile]
  split <;> rfl

/-- A read leaves the recorded placement of a pinned process alone. -/
theorem readStatFile_of_pinned (h : p.pinned = true) :
    (p.readStatFile T st).pinnedProcessor = p.pinnedProcessor ∧
      (p.readStatFile T st).pinnedNumaNode = p.pinnedNumaNode := by
  simp [readStatFile, h]

@[simp] theorem new_pinned {info : ProcInfo R} : (new T info).pinned = false := rfl

@[simp] theorem onCpu_pinned {cpu : Cpu} : (p.onCpu T cpu).pinned = true := rfl

@[simp] theorem onCpu_pinnedProcessor {cpu : Cpu} :
    (p.onCpu T cpu).pinnedProcessor = cpu := rfl

@[simp] theorem onCpu_processor {cpu : Cpu} :
    (p.onCpu T cpu).processor = p.processor := rfl

@[simp] theorem onCpu_cpuUse {cpu : Cpu} : (p.onCpu T cpu).cpuUse = p.cpuUse := rfl

@[simp] theorem onNode_pinned {node : Node} {mask : CpuSet} :
    (p.onNode node mask).pinned = true := rfl

@[simp] theorem onNode_pinnedNumaNode {node : Node} {mask : CpuSet} :
    (p.onNode node mask).pinnedNumaNode = node := rfl

/-- **`pin`.** The shortcut, a granted call or a refused call. -/
theorem pin_cases (T : Topology) (pid : Pid) (p : Process R) (cpu : Cpu) (k : Kernel) :
    (cpu = p.processor ∧ p.pinned = true ∧ p.pin T pid cpu k = (true, p, k)) ∨
    (¬ (cpu = p.processor ∧ p.pinned = true) ∧ k.outcome k.calls = true ∧
      p.pin T pid cpu k = (true, p.onCpu T cpu, k.granted pid {cpu})) ∨
    (¬ (cpu = p.processor ∧ p.pinned = true) ∧ k.outcome k.calls = false ∧
      p.pin T pid cpu k = (false, p, k.refused)) := by
  by_cases hshort : cpu = p.processor ∧ p.pinned = true
  · exact .inl ⟨hshort.1, hshort.2, if_pos hshort⟩
  · refine .inr ?_
    cases hout : k.outcome k.calls with
    | true => exact .inl ⟨hshort, rfl, by simp [pin, hshort, Kernel.schedSetaffinity, hout]⟩
    | false => exact .inr ⟨hshort, rfl, by simp [pin, hshort, Kernel.schedSetaffinity, hout]⟩

/-- **`pin_node`.** A granted call for the mask of the node, no call when libnuma does not
know the node, or a refused call. -/
theorem pinNode_cases (T : Topology) (pid : Pid) (p : Process R) (node : Node) (k : Kernel) :
    (∃ mask, T.numaNodeToCpus node = some mask ∧ k.grants mask = true ∧
      p.pinNode T pid node k = (true, p.onNode node mask, k.granted pid mask)) ∨
    (T.numaNodeToCpus node = none ∧ p.pinNode T pid node k = (false, p, k)) ∨
    (∃ mask, T.numaNodeToCpus node = some mask ∧ k.grants mask = false ∧
      p.pinNode T pid node k = (false, p, k.refused)) := by
  unfold pinNode
  cases hmask : T.numaNodeToCpus node with
  | none => exact .inr (.inl ⟨rfl, rfl⟩)
  | some mask =>
    simp only [Kernel.schedSetaffinity]
    cases hgrant : k.grants mask with
    | true => exact .inl ⟨mask, rfl, hgrant, rfl⟩
    | false => exact .inr (.inr ⟨mask, rfl, hgrant, rfl⟩)

/-- **`unpin`.** Nothing for a process that is not pinned, else a granted or a refused call. -/
theorem unpin_cases (pid : Pid) (p : Process R) (k : Kernel) :
    (p.pinned = false ∧ p.unpin pid k = (true, k)) ∨
    (p.pinned = true ∧ p.unpin pid k = (true, k.granted pid k.profilerAffinity)) ∨
    (p.pinned = true ∧ p.unpin pid k = (false, k.refused)) := by
  unfold unpin Kernel.schedSetaffinity
  cases p.pinned with
  | false => exact .inl ⟨rfl, rfl⟩
  | true =>
    refine .inr ?_
    cases k.grants k.profilerAffinity with
    | true => exact .inl ⟨rfl, rfl⟩
    | false => exact .inr ⟨rfl, rfl⟩

end Process

end Thanos
