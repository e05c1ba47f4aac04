import Thanos.Library.Run
import Thanos.SystemInfo.Placement

/-!
# Runs of placement operations

A run is a list of operations of one granularity, performed from the state in which the
profiler starts: empty maps and processes that are not pinned. `perform` is the step, and the
bulk pins of `system_info` are runs of it (`pinAll_eq_run`, `pinNonIdle_eq_run`).

* **Frame** (`perform_sameThread`): an operation does not touch the threads it does not name.
* **Coherence** (`listed_coherent_of_run`): a listed thread is listed once, at its pinned CPU
  or node, whatever the affinity calls answer.
-/

namespace Thanos

/-- Threads are pinned to single CPUs or to nodes. -/
inductive Granularity
  | cpu
  | node

/-- The operations on the placement. -/
inductive Op (R : Type)
  /-- `pin_thread_to_cpu(process)` or `pin_thread_to_node(process)`. -/
  | pinProcess (pid : Pid)
  /-- `pin_thread_to_cpu(tid, cpu)` or `pin_thread_to_node(tid, node)`. -/
  | migrate (tid : Pid) (dst : ℕ)
  /-- `unpin_thread`. -/
  | unpin (pid : Pid)
  /-- A successful update of a process. -/
  | refresh (pid : Pid) (st : Stat R)
  /-- Processes leave the tree and are purged from the maps. -/
  | remove (dropped : List (Pid × ProcInfo R))

/-- The operation is about the thread. -/
def Op.Names {R : Type} : Op R → Pid → Prop
  | .pinProcess pid, t => t = pid
  | .migrate tid _, t => t = tid
  | .unpin pid, t => t = pid
  | .refresh pid _, t => t = pid
  | .remove dropped, t => t ∈ dropped.map Prod.fst

namespace System

variable {R : Type} (T : Topology)

/-- The state in which the profiler starts. -/
def boot (root : Pid) (info : Pid → ProcInfo R) (kernel : Kernel) : System R where
  root := root
  proc pid := Process.new T (info pid)
  cpuTidMap _ := ∅
  nodeTidMap _ := ∅
  kernel := kernel

/-- The bulk pin of one process. -/
def pinProcess : Granularity → Pid → System R → Bool × System R
  | .cpu => pinProcessToCpu T
  | .node => pinProcessToNode T

/-- The migration of one thread. -/
def pinThread : Granularity → Pid → ℕ → System R → Bool × System R
  | .cpu => pinThreadToCpu T
  | .node => pinThreadToNode T

/-- An operation is performed. -/
def perform (g : Granularity) (s : System R) : Op R → System R
  | .pinProcess pid => (pinProcess T g pid s).2
  | .migrate tid dst => (pinThread T g tid dst s).2
  | .unpin pid => (unpinThread pid s).2
  | .refresh pid st => refresh T pid st s
  | .remove dropped => remove T dropped s

/-! ### Bulk pins -/

/-- `pin_all_threads` and its counterpart for nodes. -/
def pinAll (g : Granularity) (allChildren : List Pid) (s : System R) : Bool × System R :=
  forEach (pinProcess T g) (s.root :: allChildren) s

/-- `pin_all_threads`. -/
def pinAllThreads : List Pid → System R → Bool × System R :=
  pinAll T .cpu

/-- `pin_all_threads_node`. -/
def pinAllThreadsNode : List Pid → System R → Bool × System R :=
  pinAll T .node

section NonIdle

variable [RealT R]

/-- `pin_non_idle_threads` and its counterpart for nodes: the root is pinned even when idle. -/
def pinNonIdle (g : Granularity) (allChildren : List Pid) (s : System R) : Bool × System R :=
  let root := pinProcess T g s.root s
  let children := forEach
    (fun pid s => if s.isIdle pid then unpinThread pid s else pinProcess T g pid s)
    allChildren root.2
  (root.1 && children.1, children.2)

/-- `pin_non_idle_threads`. -/
def pinNonIdleThreads : List Pid → System R → Bool × System R :=
  pinNonIdle T .cpu

/-- `pin_non_idle_threads_node`. -/
def pinNonIdleThreadsNode : List Pid → System R → Bool × System R :=
  pinNonIdle T .node

/-- `pin_threads_cpu`. -/
def pinThreadsCpu (ignoreIdle : Bool) : List Pid → System R → Bool × System R :=
  if ignoreIdle then pinNonIdleThreads T else pinAllThreads T

/-- `pin_threads_node`. -/
def pinThreadsNode (ignoreIdle : Bool) : List Pid → System R → Bool × System R :=
  if ignoreIdle then pinNonIdleThreadsNode T else pinAllThreadsNode T

end NonIdle

variable {T} {g : Granularity} {s : System R} {t : Pid}

/-- Performing an operation on each of several processes is a run, if it is a run on each. -/
theorem forEach_eq_run {f : Pid → System R → Bool × System R}
    (hf : ∀ pid s, ∃ op, (f pid s).2 = perform T g s op) (pids : List Pid) :
    ∃ ops, (forEach f pids s).2 = run (perform T g) s ops := by
  induction pids generalizing s with
  | nil => exact ⟨[], rfl⟩
  | cons pid pids ih =>
    obtain ⟨op, hop⟩ := hf pid s
    obtain ⟨ops, hops⟩ := @ih (f pid s).2
    refine ⟨op :: ops, ?_⟩
    rw [forEach_cons, run_cons, ← hop]
    exact hops

/-- Pinning all threads is a run. -/
theorem pinAll_eq_run (allChildren : List Pid) :
    ∃ ops, (pinAll T g allChildren s).2 = run (perform T g) s ops :=
  forEach_eq_run (fun pid _ => ⟨.pinProcess pid, rfl⟩) _

/-- Pinning the threads that are not idle is a run. -/
theorem pinNonIdle_eq_run [RealT R] (allChildren : List Pid) :
    ∃ ops, (pinNonIdle T g allChildren s).2 = run (perform T g) s ops := by
  have hchild : ∀ pid (s : System R), ∃ op,
      (if s.isIdle pid then unpinThread pid s else pinProcess T g pid s).2 =
        perform T g s op := by
    intro pid s
    cases s.isIdle pid with
    | true => exact ⟨.unpin pid, rfl⟩
    | false => exact ⟨.pinProcess pid, rfl⟩
  obtain ⟨ops, hops⟩ := forEach_eq_run (s := (pinProcess T g s.root s).2) hchild allChildren
  exact ⟨.pinProcess s.root :: ops, hops⟩

/-! ### The invariants of a thread -/

/-- An operation does not touch the threads it does not name. -/
theorem perform_sameThread {op : Op R} (h : ¬ op.Names t) : SameThread s (perform T g s op) t := by
  match g, op with
  | .cpu, .pinProcess pid => exact pinProcessToCpu_sameThread h
  | .node, .pinProcess pid => exact pinProcessToNode_sameThread h
  | .cpu, .migrate tid dst => exact pinThreadToCpu_sameThread h
  | .node, .migrate tid dst => exact pinThreadToNode_sameThread h
  | _, .unpin pid => exact unpinThread_sameThread h
  | _, .refresh pid st => exact refresh_sameThread h
  | _, .remove dropped => exact remove_sameThread h

/-- What holds of every thread under CPU granularity. -/
structure CpuCoherent (s : System R) (t : Pid) : Prop where
  /-- A listed thread is flagged pinned and its pinned CPU is the one it is listed at. -/
  listed : ∀ c, t ∈ s.cpuTidMap c → (s.proc t).pinned = true ∧ (s.proc t).pinnedProcessor = c
  /-- The mask of a thread that is flagged pinned has been set by a pin or by an unpin. -/
  mask : (s.proc t).pinned = true →
    s.kernel.affinity t = {(s.proc t).pinnedProcessor} ∨
      s.kernel.affinity t = s.kernel.profilerAffinity

/-- What holds of every thread under node granularity. -/
structure NodeCoherent (T : Topology) (s : System R) (t : Pid) : Prop where
  /-- A listed thread is flagged pinned and its pinned node is the one it is listed at. -/
  listed : ∀ n, t ∈ s.nodeTidMap n → (s.proc t).pinned = true ∧ (s.proc t).pinnedNumaNode = n
  /-- The pinned CPU of a thread that is flagged pinned belongs to its pinned node. -/
  node : (s.proc t).pinned = true →
    T.cpuNodeMap (s.proc t).pinnedProcessor = (s.proc t).pinnedNumaNode

theorem CpuCoherent.of_sameThread {s' : System R} (h : SameThread s s' t)
    (hs : CpuCoherent s t) : CpuCoherent s' t := by
  refine ⟨fun c hc => ?_, fun hpin => ?_⟩
  · rw [h.proc]
    exact hs.listed c ((h.cpu c).mp hc)
  · rw [h.proc] at hpin ⊢
    rw [h.affinity, h.profiler]
    exact hs.mask hpin

theorem NodeCoherent.of_sameThread {s' : System R} (h : SameThread s s' t)
    (hs : NodeCoherent T s t) : NodeCoherent T s' t := by
  refine ⟨fun n hn => ?_, fun hpin => ?_⟩
  · rw [h.proc]
    exact hs.listed n ((h.node n).mp hn)
  · rw [h.proc] at hpin ⊢
    exact hs.node hpin

/-- A thread that is neither listed nor flagged pinned is coherent. -/
theorem cpuCoherent_of_not_pinned (hpin : (s.proc t).pinned = false)
    (hlist : ∀ c, t ∉ s.cpuTidMap c) : CpuCoherent s t :=
  ⟨fun c hc => absurd hc (hlist c), fun h => absurd h (by simp [hpin])⟩

/-- A thread that is neither listed nor flagged pinned is coherent. -/
theorem nodeCoherent_of_not_pinned (hpin : (s.proc t).pinned = false)
    (hlist : ∀ n, t ∉ s.nodeTidMap n) : NodeCoherent T s t :=
  ⟨fun n hn => absurd hn (hlist n), fun h => absurd h (by simp [hpin])⟩

theorem CpuCoherent.pinProcess (hs : CpuCoherent s t) :
    CpuCoherent (pinProcessToCpu T t s).2 t := by
  obtain ⟨-, hpin, heq⟩ | ⟨-, p, rfl, heq⟩ | ⟨-, heq⟩ := pinProcessToCpu_cases T t s
  · -- the shortcut: the thread is listed and its mask stays as it is
    rw [heq]
    refine ⟨fun c hc => ?_, fun _ => hs.mask hpin⟩
    obtain hc | ⟨-, rfl⟩ := mem_insertCpu.mp hc
    · exact hs.listed c hc
    · exact ⟨hpin, rfl⟩
  · rw [heq]
    refine ⟨fun c hc => ?_, fun _ => .inl (by simp)⟩
    obtain hc | ⟨-, rfl⟩ := mem_insertCpu.mp hc
    · simpa using (hs.listed c hc).2
    · simp
  · rw [heq]
    exact hs.of_sameThread refused_sameThread

theorem CpuCoherent.migrate {cpu : Cpu} (hs : CpuCoherent s t) :
    CpuCoherent (pinThreadToCpu T t cpu s).2 t := by
  obtain ⟨-, -, -, heq⟩ | ⟨-, -, -, heq⟩ | ⟨-, heq⟩ | ⟨-, -, -, heq⟩ :=
    pinThreadToCpu_cases T t cpu s
  · rw [heq]
    exact hs
  · rw [heq]
    refine ⟨fun c hc => ⟨by simp, ?_⟩, fun _ => .inl (by simp)⟩
    rw [movedToCpu_proc_self, Process.onCpu_pinnedProcessor]
    by_cases hold : (s.proc t).pinnedProcessor = cpu
    · rw [mem_movedToCpu_of_eq hold] at hc
      rw [← hold]
      exact (hs.listed c hc).2
    · -- an entry at a third CPU would have been incoherent before
      obtain rfl | ⟨hc, hne⟩ := (mem_movedToCpu_self hold).mp hc
      · rfl
      · exact absurd (hs.listed c hc).2.symm hne
  · rw [heq]
    exact hs
  · rw [heq]
    exact hs.of_sameThread refused_sameThread

theorem CpuCoherent.unpin (hs : CpuCoherent s t) : CpuCoherent (unpinThread t s).2 t := by
  obtain ⟨k, hk, heq⟩ | heq := unpinThread_cases t s
  · rw [heq]
    refine ⟨fun c hc => ?_, fun hpin => ?_⟩
    · rw [eraseNode_cpuTidMap, mem_eraseCpu] at hc
      exact absurd ⟨rfl, (hs.listed c hc.1).2.symm⟩ hc.2
    · obtain ⟨hno, -⟩ | ⟨-, rfl⟩ := hk
      · simp [hno] at hpin
      · exact .inr (by simp)
  · rw [heq]
    exact hs.of_sameThread refused_sameThread

theorem CpuCoherent.refresh {st : Stat R} (hs : CpuCoherent s t) :
    CpuCoherent (refresh T t st s) t := by
  refine ⟨fun c hc => ?_, fun hpin => ?_⟩
  · obtain ⟨hpin, hcpu⟩ := hs.listed c hc
    simp [System.refresh, hpin, Process.readStatFile_of_pinned hpin, hcpu]
  · have hpin' : (s.proc t).pinned = true := by simpa [System.refresh] using hpin
    simpa [System.refresh, Process.readStatFile_of_pinned hpin'] using hs.mask hpin'

/-- **Coherence under CPU granularity**, one step. -/
theorem CpuCoherent.perform (hs : CpuCoherent s t) (op : Op R) :
    CpuCoherent (perform T .cpu s op) t := by
  by_cases hop : op.Names t
  · match op with
    | .pinProcess pid => exact hop ▸ hs.pinProcess
    | .migrate tid dst => exact hop ▸ hs.migrate
    | .unpin pid => exact hop ▸ hs.unpin
    | .refresh pid st => exact hop ▸ hs.refresh
    | .remove dropped =>
      obtain ⟨hpin, hcpu, -⟩ := remove_of_mem (T := T) hop
      exact cpuCoherent_of_not_pinned hpin hcpu
  · exact hs.of_sameThread (perform_sameThread hop)

/-- The node recorded by a granted node pin is that of the first CPU of the mask. -/
theorem cpuNodeMap_onNode {p : Process R} {node : Node} {mask : CpuSet}
    (hmask : T.numaNodeToCpus node = some mask) (hsize : 0 < mask.size) :
    T.cpuNodeMap (p.onNode node mask).pinnedProcessor = node := by
  obtain ⟨c, hc⟩ := OrderedSet.exists_begin? hsize
  have hcpu : (p.onNode node mask).pinnedProcessor = c := by simp [Process.onNode, hc]
  rw [hcpu]
  exact T.cpuNodeMap_begin node mask c hmask hc

theorem NodeCoherent.pinProcess (hs : NodeCoherent T s t) :
    NodeCoherent T (pinProcessToNode T t s).2 t := by
  obtain ⟨mask, p, hmask, hsize, rfl, heq⟩ | heq | heq := pinProcessToNode_cases T t s
  · have hnode := cpuNodeMap_onNode (p := s.proc t) hmask hsize
    rw [heq]
    refine ⟨fun n hn => ⟨by simp, ?_⟩, fun _ => by simpa using hnode⟩
    obtain hn | ⟨-, rfl⟩ := mem_insertNode.mp hn
    · simpa using (hs.listed n hn).2
    · simpa using hnode.symm
  · rw [heq]
    exact hs
  · rw [heq]
    exact hs.of_sameThread refused_sameThread

theorem NodeCoherent.migrate {node : Node} (hs : NodeCoherent T s t) :
    NodeCoherent T (pinThreadToNode T t node s).2 t := by
  obtain ⟨-, mask, hmask, hgrant, heq⟩ | ⟨-, heq⟩ | ⟨-, mask, -, -, heq⟩ :=
    pinThreadToNode_cases T t node s
  · have hnode := cpuNodeMap_onNode (p := s.proc t) hmask (Kernel.size_pos_of_grants hgrant)
    rw [heq]
    refine ⟨fun n hn => ⟨by simp, ?_⟩, fun _ => by simpa using hnode⟩
    rw [movedToNode_proc_self, Process.onNode_pinnedNumaNode]
    by_cases hold : T.cpuNodeMap (s.proc t).pinnedProcessor = node
    · rw [mem_movedToNode_of_eq hold] at hn
      obtain ⟨hpin, hlist⟩ := hs.listed n hn
      rw [← hold, hs.node hpin, hlist]
    · -- the thread leaves the set of its node and enters no other
      have hcpu : (s.proc t).pinnedProcessor ≠ ((s.proc t).onNode node mask).pinnedProcessor :=
        fun h => hold (h ▸ hnode)
      obtain ⟨hn, hne, -⟩ := (mem_movedToNode_self hold hcpu).mp hn
      obtain ⟨hpin, hlist⟩ := hs.listed n hn
      exact absurd (hlist.symm.trans (hs.node hpin).symm) hne
  · rw [heq]
    exact hs
  · rw [heq]
    exact hs.of_sameThread refused_sameThread

theorem NodeCoherent.unpin (hs : NodeCoherent T s t) :
    NodeCoherent T (unpinThread t s).2 t := by
  obtain ⟨k, hk, heq⟩ | heq := unpinThread_cases t s
  · rw [heq]
    refine ⟨fun n hn => ?_, fun hpin => hs.node hpin⟩
    rw [mem_eraseNode] at hn
    exact absurd ⟨rfl, (hs.listed n hn.1).2.symm⟩ hn.2
  · rw [heq]
    exact hs.of_sameThread refused_sameThread

theorem NodeCoherent.refresh {st : Stat R} (hs : NodeCoherent T s t) :
    NodeCoherent T (refresh T t st s) t := by
  refine ⟨fun n hn => ?_, fun hpin => ?_⟩
  · obtain ⟨hpin, hnode⟩ := hs.listed n hn
    simp [System.refresh, hpin, Process.readStatFile_of_pinned hpin, hnode]
  · have hpin' : (s.proc t).pinned = true := by simpa [System.refresh] using hpin
    simpa [System.refresh, Process.readStatFile_of_pinned hpin'] using hs.node hpin'

/-- **Coherence under node granularity**, one step. -/
theorem NodeCoherent.perform (hs : NodeCoherent T s t) (op : Op R) :
    NodeCoherent T (perform T .node s op) t := by
  by_cases hop : op.Names t
  · match op with
    | .pinProcess pid => exact hop ▸ hs.pinProcess
    | .migrate tid dst => exact hop ▸ hs.migrate
    | .unpin pid => exact hop ▸ hs.unpin
    | .refresh pid st => exact hop ▸ hs.refresh
    | .remove dropped =>
      obtain ⟨hpin, -, hnode⟩ := remove_of_mem (T := T) hop
      exact nodeCoherent_of_not_pinned hpin hnode
  · exact hs.of_sameThread (perform_sameThread hop)

/-! ### Coherence of every run -/

section Coherence

variable {root : Pid} {info : Pid → ProcInfo R} {kernel : Kernel}

theorem cpuCoherent_boot : CpuCoherent (boot T root info kernel) t :=
  cpuCoherent_of_not_pinned rfl fun _ => OrderedSet.notMem_empty

theorem nodeCoherent_boot : NodeCoherent T (boot T root info kernel) t :=
  nodeCoherent_of_not_pinned rfl fun _ => OrderedSet.notMem_empty

theorem cpuCoherent_run (ops : List (Op R)) (t : Pid) :
    CpuCoherent (run (perform T .cpu) (boot T root info kernel) ops) t :=
  run_invariant (I := (CpuCoherent · t)) cpuCoherent_boot fun _ op hs => hs.perform op

theorem nodeCoherent_run (ops : List (Op R)) (t : Pid) :
    NodeCoherent T (run (perform T .node) (boot T root info kernel) ops) t :=
  run_invariant (I := (NodeCoherent T · t)) nodeCoherent_boot fun _ op hs => hs.perform op

end Coherence

/-- Each thread is in at most one set of `cpu_tid_map` and, if listed, is flagged pinned with
that CPU as its pinned CPU. -/
def CpuMapCoherent (s : System R) : Prop :=
  ∀ t, (∀ c c', t ∈ s.cpuTidMap c → t ∈ s.cpuTidMap c' → c = c') ∧
    ∀ c, t ∈ s.cpuTidMap c → (s.proc t).pinned = true ∧ (s.proc t).pinnedProcessor = c

/-- Each thread is in at most one set of `node_tid_map` and, if listed, is flagged pinned with
that node as its pinned node. -/
def NodeMapCoherent (s : System R) : Prop :=
  ∀ t, (∀ n n', t ∈ s.nodeTidMap n → t ∈ s.nodeTidMap n' → n = n') ∧
    ∀ n, t ∈ s.nodeTidMap n → (s.proc t).pinned = true ∧ (s.proc t).pinnedNumaNode = n

/-- **Coherence.** After every run of operations of one granularity, with any outcomes of the
affinity calls, a listed thread is listed once, at its pinned CPU or node. -/
theorem listed_coherent_of_run (T : Topology) (root : Pid) (info : Pid → ProcInfo R)
    (kernel : Kernel) (ops : List (Op R)) :
    CpuMapCoherent (run (perform T .cpu) (boot T root info kernel) ops) ∧
      NodeMapCoherent (run (perform T .node) (boot T root info kernel) ops) := by
  constructor
  · intro t
    have ht : CpuCoherent (run (perform T .cpu) (boot T root info kernel) ops) t :=
      cpuCoherent_run ops t
    exact ⟨fun c c' hc hc' => (ht.listed c hc).2.symm.trans (ht.listed c' hc').2, ht.listed⟩
  · intro t
    have ht : NodeCoherent T (run (perform T .node) (boot T root info kernel) ops) t :=
      nodeCoherent_run ops t
    exact ⟨fun n n' hn hn' => (ht.listed n hn).2.symm.trans (ht.listed n' hn').2, ht.listed⟩

end System

end Thanos
