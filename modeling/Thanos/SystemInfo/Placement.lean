import Thanos.SystemInfo.Process

/-!
# The placement of threads

`System` is the mutable part of `system_info`: the processes, the maps from CPUs and nodes to
the threads placed on them, and the kernel. The process tree is a total table: at a pid that is
not in the tree it holds the process that `retrieve` would create, an unpinned one.

The operations of `auxiliary_functions` follow their sources, and each has one lemma that says
everything it can do (`pinThreadToCpu_cases` and its siblings): the outcome of a granted call
is a state in closed form (`movedToCpu`, `movedToNode`), whose maps are described by their
members.
-/

namespace Thanos

/-- The mutable state of `system_info`. -/
structure System (R : Type) where
  /-- `proc_tree.root()`. -/
  root : Pid
  /-- `proc_tree`. -/
  proc : Pid → Process R
  /-- `details::cpu_tid_map`: input a CPU, output the threads placed on it. -/
  cpuTidMap : Cpu → OrderedSet Pid
  /-- `details::node_tid_map`: input a node, output the threads placed on it. -/
  nodeTidMap : Node → OrderedSet Pid
  kernel : Kernel

namespace System

variable {R : Type} (T : Topology)

/-! ### Updates of single tables -/

section Updates

variable (s : System R) (t : Pid) (c : Cpu) (n : Node)

/-- A process has been changed by an operation, and the kernel with it. -/
def store (p : Process R) (k : Kernel) : System R :=
  { s with proc := Function.update s.proc t p, kernel := k }

/-- An affinity call has been refused. -/
def refused : System R :=
  { s with kernel := s.kernel.refused }

/-- `details::cpu_tid_map[c].erase(t)`. -/
def eraseCpu : System R :=
  { s with cpuTidMap := Function.update s.cpuTidMap c ((s.cpuTidMap c).erase t) }

/-- `details::cpu_tid_map[c].insert(t)`. -/
def insertCpu : System R :=
  { s with cpuTidMap := Function.update s.cpuTidMap c (insert t (s.cpuTidMap c)) }

/-- `details::node_tid_map[n].erase(t)`. -/
def eraseNode : System R :=
  { s with nodeTidMap := Function.update s.nodeTidMap n ((s.nodeTidMap n).erase t) }

/-- `details::node_tid_map[n].insert(t)`. -/
def insertNode : System R :=
  { s with nodeTidMap := Function.update s.nodeTidMap n (insert t (s.nodeTidMap n)) }

end Updates

/-! ### Pinning and unpinning -/

/-- `pin_thread_to_cpu(tid, cpu)`. The node map is only purged: the thread is erased from the
set of the new node too. -/
def pinThreadToCpu (tid : Pid) (cpu : Cpu) (s : System R) : Bool × System R :=
  if tid = 0 then (false, s)
  else
    let oldCpu := (s.proc tid).pinnedProcessor
    let oldNode := T.cpuNodeMap oldCpu
    let newNode := T.cpuNodeMap cpu
    match (s.proc tid).pin T tid cpu s.kernel with
    | (false, p, k) => (false, s.store tid p k)
    | (true, p, k) =>
      let s := s.store tid p k
      if oldCpu ≠ p.pinnedProcessor then
        let s := (s.eraseCpu tid oldCpu).insertCpu tid cpu
        if oldNode ≠ newNode then (true, (s.eraseNode tid oldNode).eraseNode tid newNode)
        else (true, s)
      else (true, s)

/-- `pin_thread_to_cpu(process)`. -/
def pinProcessToCpu (pid : Pid) (s : System R) : Bool × System R :=
  match (s.proc pid).pinSelf T pid s.kernel with
  | (false, p, k) => (false, s.store pid p k)
  | (true, p, k) =>
    (true, ((s.store pid p k).insertCpu pid p.pinnedProcessor).insertNode pid p.pinnedNumaNode)

/-- `pin_thread_to_node(tid, node)`. The node map is only purged: the thread is erased from
the set of the new node too. -/
def pinThreadToNode (tid : Pid) (node : Node) (s : System R) : Bool × System R :=
  if tid = 0 then (false, s)
  else
    let oldCpu := (s.proc tid).pinnedProcessor
    let oldNode := T.cpuNodeMap oldCpu
    match (s.proc tid).pinNode T tid node s.kernel with
    | (false, p, k) => (false, s.store tid p k)
    | (true, p, k) =>
      let s := s.store tid p k
      if oldCpu ≠ p.pinnedProcessor then
        let s := (s.eraseCpu tid oldCpu).insertCpu tid p.pinnedProcessor
        if oldNode ≠ node then (true, (s.eraseNode tid oldNode).eraseNode tid node)
        else (true, s)
      else (true, s)

/-- `pin_thread_to_node(process)`. -/
def pinProcessToNode (pid : Pid) (s : System R) : Bool × System R :=
  match (s.proc pid).pinNodeSelf T pid s.kernel with
  | (false, p, k) => (false, s.store pid p k)
  | (true, p, k) =>
    (true, (s.store pid p k).insertNode pid (T.cpuNodeMap p.pinnedProcessor))

/-- `unpin_thread(process)`. -/
def unpinThread (pid : Pid) (s : System R) : Bool × System R :=
  let oldCpu := (s.proc pid).pinnedProcessor
  let oldNode := (s.proc pid).pinnedNumaNode
  match (s.proc pid).unpin pid s.kernel with
  | (false, k) => (false, { s with kernel := k })
  | (true, k) => (true, ({ s with kernel := k }.eraseCpu pid oldCpu).eraseNode pid oldNode)

/-! ### The process tree -/

/-- A successful `process::update`. -/
def refresh (pid : Pid) (st : Stat R) (s : System R) : System R :=
  s.store pid ((s.proc pid).readStatFile T st) s.kernel

/-- A process is dropped from the tree: its destructor unpins it, and the pid names a process
still to be created. -/
def dropProcess (s : System R) (dropped : Pid × ProcInfo R) : System R :=
  s.store dropped.1 (Process.new T dropped.2) ((s.proc dropped.1).unpin dropped.1 s.kernel).2

/-- The body of the loop of `remove_invalid_data`. -/
def forget (s : System R) (pid : Pid) : System R :=
  { s with
    cpuTidMap := fun c => (s.cpuTidMap c).erase pid
    nodeTidMap := fun n => (s.nodeTidMap n).erase pid }

/-- `remove_invalid_data(invalid_pids)`. -/
def removeInvalidData (pids : List Pid) (s : System R) : System R :=
  pids.foldl forget s

/-- Processes are dropped from the tree and their pids purged from the maps. -/
def remove (dropped : List (Pid × ProcInfo R)) (s : System R) : System R :=
  removeInvalidData (dropped.map Prod.fst) (dropped.foldl (dropProcess T) s)

/-! ### Queries -/

/-- `is_idle`, with `IDLE_THRESHOLD`. -/
def isIdle [RealT R] (s : System R) (tid : Pid) : Bool :=
  decide ((s.proc tid).cpuUse < RealT.ofRat (1 / 100))

/-- `is_migratable`. -/
def isMigratable (s : System R) (tid : Pid) : Bool :=
  (s.proc tid).migratable

/-- `process::RUNNING_CHAR`. -/
def runningChar : Char := 'R'

/-- `is_running`. -/
def isRunning (s : System R) (tid : Pid) : Bool :=
  (s.proc tid).state == runningChar

/-- `pid_from_tid`: a lightweight process belongs to its parent. -/
def pidFromTid (s : System R) (tid : Pid) : Pid :=
  if tid = s.root then tid
  else if (s.proc tid).lwp then (s.proc tid).parent.getD (s.proc tid).ppid
  else (s.proc tid).ppid

/-- `is_cpu_free`. -/
def isCpuFree (s : System R) (cpu : Cpu) : Bool :=
  (s.cpuTidMap cpu).size == 0

/-- `is_cpu_free_in_node`. -/
def isCpuFreeInNode (s : System R) (node : Node) : Bool :=
  decide ((s.nodeTidMap node).size < T.numOfCpusIn node)

/-- `non_idle_tids_from_cpu`. -/
def nonIdleTidsFromCpu [RealT R] (s : System R) (cpu : Cpu) : OrderedSet Pid :=
  (s.cpuTidMap cpu).filter fun tid => !s.isIdle tid

/-- `non_idle_tids_from_node`. -/
def nonIdleTidsFromNode [RealT R] (s : System R) (node : Node) : OrderedSet Pid :=
  (s.nodeTidMap node).filter fun tid => !s.isIdle tid

/-- `tids_from_cpu(cpu, ignore_idle)`. -/
def tidsFromCpu [RealT R] (s : System R) (ignoreIdle : Bool) (cpu : Cpu) : OrderedSet Pid :=
  if ignoreIdle then s.nonIdleTidsFromCpu cpu else s.cpuTidMap cpu

/-- `tids_from_node(node, ignore_idle)`. -/
def tidsFromNode [RealT R] (s : System R) (ignoreIdle : Bool) (node : Node) : OrderedSet Pid :=
  if ignoreIdle then s.nonIdleTidsFromNode node else s.nodeTidMap node

/-- `tids(ignore_idle)`: the union over the nodes. -/
def tids [RealT R] (s : System R) (ignoreIdle : Bool) : OrderedSet Pid :=
  T.nodes.foldl (fun acc node => acc.insertMany (s.tidsFromNode ignoreIdle node).toList) ∅

/-! ### The outcome of a granted call -/

/-- The state after `pin_thread_to_cpu(tid, cpu)` had its affinity call granted. -/
def movedToCpu (tid : Pid) (cpu : Cpu) (s : System R) : System R :=
  let oldCpu := (s.proc tid).pinnedProcessor
  let stored := s.store tid ((s.proc tid).onCpu T cpu) (s.kernel.granted tid {cpu})
  if oldCpu = cpu then stored
  else
    let moved := (stored.eraseCpu tid oldCpu).insertCpu tid cpu
    if T.cpuNodeMap oldCpu = T.cpuNodeMap cpu then moved
    else (moved.eraseNode tid (T.cpuNodeMap oldCpu)).eraseNode tid (T.cpuNodeMap cpu)

/-- The state after `pin_thread_to_node(tid, node)` had its affinity call granted. -/
def movedToNode (tid : Pid) (node : Node) (mask : CpuSet) (s : System R) : System R :=
  let oldCpu := (s.proc tid).pinnedProcessor
  let p := (s.proc tid).onNode node mask
  let stored := s.store tid p (s.kernel.granted tid mask)
  if oldCpu = p.pinnedProcessor then stored
  else
    let moved := (stored.eraseCpu tid oldCpu).insertCpu tid p.pinnedProcessor
    if T.cpuNodeMap oldCpu = node then moved
    else (moved.eraseNode tid (T.cpuNodeMap oldCpu)).eraseNode tid node

variable {T} {s : System R} {tid t : Pid} {cpu c : Cpu} {node n : Node}

section Updates

variable {p : Process R} {k : Kernel}

@[simp] theorem store_cpuTidMap : (s.store tid p k).cpuTidMap = s.cpuTidMap := rfl

@[simp] theorem store_nodeTidMap : (s.store tid p k).nodeTidMap = s.nodeTidMap := rfl

@[simp] theorem store_kernel : (s.store tid p k).kernel = k := rfl

@[simp] theorem store_proc_self : (s.store tid p k).proc tid = p := Function.update_self ..

theorem store_proc_of_ne (h : t ≠ tid) : (s.store tid p k).proc t = s.proc t :=
  Function.update_of_ne h ..

@[simp] theorem refused_proc : s.refused.proc = s.proc := rfl

@[simp] theorem refused_cpuTidMap : s.refused.cpuTidMap = s.cpuTidMap := rfl

@[simp] theorem refused_nodeTidMap : s.refused.nodeTidMap = s.nodeTidMap := rfl

@[simp] theorem refused_kernel : s.refused.kernel = s.kernel.refused := rfl

@[simp] theorem eraseCpu_proc : (s.eraseCpu tid cpu).proc = s.proc := rfl

@[simp] theorem eraseCpu_kernel : (s.eraseCpu tid cpu).kernel = s.kernel := rfl

@[simp] theorem eraseCpu_nodeTidMap : (s.eraseCpu tid cpu).nodeTidMap = s.nodeTidMap := rfl

@[simp] theorem insertCpu_proc : (s.insertCpu tid cpu).proc = s.proc := rfl

@[simp] theorem insertCpu_kernel : (s.insertCpu tid cpu).kernel = s.kernel := rfl

@[simp] theorem insertCpu_nodeTidMap : (s.insertCpu tid cpu).nodeTidMap = s.nodeTidMap := rfl

@[simp] theorem eraseNode_proc : (s.eraseNode tid node).proc = s.proc := rfl

@[simp] theorem eraseNode_kernel : (s.eraseNode tid node).kernel = s.kernel := rfl

@[simp] theorem eraseNode_cpuTidMap : (s.eraseNode tid node).cpuTidMap = s.cpuTidMap := rfl

@[simp] theorem insertNode_proc : (s.insertNode tid node).proc = s.proc := rfl

@[simp] theorem insertNode_kernel : (s.insertNode tid node).kernel = s.kernel := rfl

@[simp] theorem insertNode_cpuTidMap : (s.insertNode tid node).cpuTidMap = s.cpuTidMap := rfl

@[simp]
theorem mem_eraseCpu :
    t ∈ (s.eraseCpu tid cpu).cpuTidMap c ↔ t ∈ s.cpuTidMap c ∧ ¬ (t = tid ∧ c = cpu) := by
  by_cases hc : c = cpu
  · subst hc
    simp [eraseCpu, and_comm]
  · simp [eraseCpu, hc]

@[simp]
theorem mem_insertCpu :
    t ∈ (s.insertCpu tid cpu).cpuTidMap c ↔ t ∈ s.cpuTidMap c ∨ (t = tid ∧ c = cpu) := by
  by_cases hc : c = cpu
  · subst hc
    simp [insertCpu, or_comm]
  · simp [insertCpu, hc]

@[simp]
theorem mem_eraseNode :
    t ∈ (s.eraseNode tid node).nodeTidMap n ↔ t ∈ s.nodeTidMap n ∧ ¬ (t = tid ∧ n = node) := by
  by_cases hn : n = node
  · subst hn
    simp [eraseNode, and_comm]
  · simp [eraseNode, hn]

@[simp]
theorem mem_insertNode :
    t ∈ (s.insertNode tid node).nodeTidMap n ↔
      t ∈ s.nodeTidMap n ∨ (t = tid ∧ n = node) := by
  by_cases hn : n = node
  · subst hn
    simp [insertNode, or_comm]
  · simp [insertNode, hn]

end Updates

@[simp] theorem store_self : s.store tid (s.proc tid) s.kernel = s := by
  rw [store, Function.update_eq_self]

@[simp] theorem store_refused : s.store tid (s.proc tid) s.kernel.refused = s.refused := by
  rw [store, Function.update_eq_self, refused]

/-- **`pin_thread_to_cpu(tid, cpu)`.** The shortcut of `pin`, a granted call, no call for the
thread 0, or a refused call. -/
theorem pinThreadToCpu_cases (T : Topology) (tid : Pid) (cpu : Cpu) (s : System R) :
    (tid ≠ 0 ∧ cpu = (s.proc tid).processor ∧ (s.proc tid).pinned = true ∧
      pinThreadToCpu T tid cpu s = (true, s)) ∨
    (tid ≠ 0 ∧ ¬ (cpu = (s.proc tid).processor ∧ (s.proc tid).pinned = true) ∧
      s.kernel.outcome s.kernel.calls = true ∧
      pinThreadToCpu T tid cpu s = (true, movedToCpu T tid cpu s)) ∨
    (tid = 0 ∧ pinThreadToCpu T tid cpu s = (false, s)) ∨
    (tid ≠ 0 ∧ ¬ (cpu = (s.proc tid).processor ∧ (s.proc tid).pinned = true) ∧
      s.kernel.outcome s.kernel.calls = false ∧
      pinThreadToCpu T tid cpu s = (false, s.refused)) := by
  by_cases htid : tid = 0
  · exact .inr (.inr (.inl ⟨htid, if_pos htid⟩))
  · obtain ⟨hcpu, hpin, heq⟩ | ⟨hshort, hout, heq⟩ | ⟨hshort, hout, heq⟩ :=
      Process.pin_cases T tid (s.proc tid) cpu s.kernel
    · refine .inl ⟨htid, hcpu, hpin, ?_⟩
      simp [pinThreadToCpu, htid, heq]
    · refine .inr (.inl ⟨htid, hshort, hout, ?_⟩)
      simp only [pinThreadToCpu, htid, heq, movedToCpu, Process.onCpu_pinnedProcessor, if_false,
        ne_eq, ite_not]
      split_ifs <;> rfl
    · refine .inr (.inr (.inr ⟨htid, hshort, hout, ?_⟩))
      simp [pinThreadToCpu, htid, heq]

/-- **`pin_thread_to_node(tid, node)`.** A granted call, no call for the thread 0 or for a node
that libnuma does not know, or a refused call. -/
theorem pinThreadToNode_cases (T : Topology) (tid : Pid) (node : Node) (s : System R) :
    (tid ≠ 0 ∧ ∃ mask, T.numaNodeToCpus node = some mask ∧ s.kernel.grants mask = true ∧
      pinThreadToNode T tid node s = (true, movedToNode T tid node mask s)) ∨
    ((tid = 0 ∨ T.numaNodeToCpus node = none) ∧ pinThreadToNode T tid node s = (false, s)) ∨
    (tid ≠ 0 ∧ ∃ mask, T.numaNodeToCpus node = some mask ∧ s.kernel.grants mask = false ∧
      pinThreadToNode T tid node s = (false, s.refused)) := by
  by_cases htid : tid = 0
  · exact .inr (.inl ⟨.inl htid, if_pos htid⟩)
  · obtain ⟨mask, hmask, hgrant, heq⟩ | ⟨hnone, heq⟩ | ⟨mask, hmask, hgrant, heq⟩ :=
      Process.pinNode_cases T tid (s.proc tid) node s.kernel
    · refine .inl ⟨htid, mask, hmask, hgrant, ?_⟩
      simp only [pinThreadToNode, htid, heq, movedToNode, if_false, ne_eq, ite_not]
      split_ifs <;> rfl
    · refine .inr (.inl ⟨.inr hnone, ?_⟩)
      simp [pinThreadToNode, htid, heq]
    · refine .inr (.inr ⟨htid, mask, hmask, hgrant, ?_⟩)
      simp [pinThreadToNode, htid, heq]

/-- **`pin_thread_to_cpu(process)`.** The shortcut of `pin` or a granted call, after which the
thread is listed, or a refused call. -/
theorem pinProcessToCpu_cases (T : Topology) (pid : Pid) (s : System R) :
    ((s.proc pid).pinnedProcessor = (s.proc pid).processor ∧ (s.proc pid).pinned = true ∧
      pinProcessToCpu T pid s = (true, (s.insertCpu pid (s.proc pid).pinnedProcessor).insertNode
        pid (s.proc pid).pinnedNumaNode)) ∨
    (¬ ((s.proc pid).pinnedProcessor = (s.proc pid).processor ∧ (s.proc pid).pinned = true) ∧
      ∃ p, p = (s.proc pid).onCpu T (s.proc pid).pinnedProcessor ∧
        pinProcessToCpu T pid s =
          (true, ((s.store pid p (s.kernel.granted pid {p.pinnedProcessor})).insertCpu
            pid p.pinnedProcessor).insertNode pid p.pinnedNumaNode)) ∨
    (¬ ((s.proc pid).pinnedProcessor = (s.proc pid).processor ∧ (s.proc pid).pinned = true) ∧
      pinProcessToCpu T pid s = (false, s.refused)) := by
  obtain ⟨hcpu, hpin, heq⟩ | ⟨hshort, -, heq⟩ | ⟨hshort, -, heq⟩ :=
    Process.pin_cases T pid (s.proc pid) (s.proc pid).pinnedProcessor s.kernel
  · refine .inl ⟨hcpu, hpin, ?_⟩
    simp [pinProcessToCpu, Process.pinSelf, heq]
  · refine .inr (.inl ⟨hshort, _, rfl, ?_⟩)
    simp [pinProcessToCpu, Process.pinSelf, heq]
  · refine .inr (.inr ⟨hshort, ?_⟩)
    simp [pinProcessToCpu, Process.pinSelf, heq]

/-- **`pin_thread_to_node(process)`.** A granted call, after which the thread is listed at the
node of the first CPU of the mask, no call for a node that libnuma does not know, or a refused
call. -/
theorem pinProcessToNode_cases (T : Topology) (pid : Pid) (s : System R) :
    (∃ mask p, T.numaNodeToCpus (s.proc pid).pinnedNumaNode = some mask ∧ 0 < mask.size ∧
      p = (s.proc pid).onNode (s.proc pid).pinnedNumaNode mask ∧
      pinProcessToNode T pid s = (true, (s.store pid p (s.kernel.granted pid mask)).insertNode
        pid (T.cpuNodeMap p.pinnedProcessor))) ∨
    pinProcessToNode T pid s = (false, s) ∨
    pinProcessToNode T pid s = (false, s.refused) := by
  obtain ⟨mask, hmask, hgrant, heq⟩ | ⟨-, heq⟩ | ⟨mask, -, -, heq⟩ :=
    Process.pinNode_cases T pid (s.proc pid) (s.proc pid).pinnedNumaNode s.kernel
  · refine .inl ⟨mask, _, hmask, Kernel.size_pos_of_grants hgrant, rfl, ?_⟩
    simp [pinProcessToNode, Process.pinNodeSelf, heq]
  · exact .inr (.inl (by simp [pinProcessToNode, Process.pinNodeSelf, heq]))
  · exact .inr (.inr (by simp [pinProcessToNode, Process.pinNodeSelf, heq]))

/-- **`unpin_thread`.** The thread is erased from the sets of its pinned CPU and node, with the
mask of the profiler installed if it is pinned, or the call is refused. -/
theorem unpinThread_cases (pid : Pid) (s : System R) :
    (∃ k, ((s.proc pid).pinned = false ∧ k = s.kernel ∨
        (s.proc pid).pinned = true ∧ k = s.kernel.granted pid s.kernel.profilerAffinity) ∧
      unpinThread pid s =
        (true, ({ s with kernel := k }.eraseCpu pid (s.proc pid).pinnedProcessor).eraseNode
          pid (s.proc pid).pinnedNumaNode)) ∨
    unpinThread pid s = (false, s.refused) := by
  obtain ⟨hpin, heq⟩ | ⟨hpin, heq⟩ | ⟨-, heq⟩ := Process.unpin_cases pid (s.proc pid) s.kernel
  · exact .inl ⟨_, .inl ⟨hpin, rfl⟩, by simp [unpinThread, heq]⟩
  · exact .inl ⟨_, .inr ⟨hpin, rfl⟩, by simp [unpinThread, heq]⟩
  · exact .inr (by simp [unpinThread, heq, refused])

/-! ### The members of the maps after a granted call -/

@[simp] theorem movedToCpu_proc_self :
    (movedToCpu T tid cpu s).proc tid = (s.proc tid).onCpu T cpu := by
  simp only [movedToCpu]
  split_ifs <;> simp

theorem movedToCpu_proc_of_ne (h : t ≠ tid) : (movedToCpu T tid cpu s).proc t = s.proc t := by
  simp only [movedToCpu]
  split_ifs <;> simp [store_proc_of_ne h]

@[simp] theorem movedToCpu_kernel :
    (movedToCpu T tid cpu s).kernel = s.kernel.granted tid {cpu} := by
  simp only [movedToCpu]
  split_ifs <;> simp

/-- Threads other than the one that moves stay where they are. -/
theorem mem_movedToCpu_of_ne (h : t ≠ tid) :
    t ∈ (movedToCpu T tid cpu s).cpuTidMap c ↔ t ∈ s.cpuTidMap c := by
  simp only [movedToCpu]
  split_ifs <;> simp [h]

/-- A thread that is pinned again on its CPU stays listed as it was. -/
theorem mem_movedToCpu_of_eq (h : (s.proc tid).pinnedProcessor = cpu) :
    tid ∈ (movedToCpu T tid cpu s).cpuTidMap c ↔ tid ∈ s.cpuTidMap c := by
  simp [movedToCpu, h]

/-- A thread that moves leaves the set of its old CPU and enters that of the new one. -/
theorem mem_movedToCpu_self (h : (s.proc tid).pinnedProcessor ≠ cpu) :
    tid ∈ (movedToCpu T tid cpu s).cpuTidMap c ↔
      c = cpu ∨ (tid ∈ s.cpuTidMap c ∧ c ≠ (s.proc tid).pinnedProcessor) := by
  simp only [movedToCpu]
  rw [if_neg h]
  split_ifs <;> simp [or_comm]

@[simp] theorem movedToNode_proc_self {mask : CpuSet} :
    (movedToNode T tid node mask s).proc tid = (s.proc tid).onNode node mask := by
  simp only [movedToNode]
  split_ifs <;> simp

theorem movedToNode_proc_of_ne {mask : CpuSet} (h : t ≠ tid) :
    (movedToNode T tid node mask s).proc t = s.proc t := by
  simp only [movedToNode]
  split_ifs <;> simp [store_proc_of_ne h]

@[simp] theorem movedToNode_kernel {mask : CpuSet} :
    (movedToNode T tid node mask s).kernel = s.kernel.granted tid mask := by
  simp only [movedToNode]
  split_ifs <;> simp

/-- Threads other than the one that moves stay where they are. -/
theorem mem_movedToNode_of_ne {mask : CpuSet} (h : t ≠ tid) :
    t ∈ (movedToNode T tid node mask s).nodeTidMap n ↔ t ∈ s.nodeTidMap n := by
  simp only [movedToNode]
  split_ifs <;> simp [h]

/-- A thread that is pinned again on its node stays listed as it was. -/
theorem mem_movedToNode_of_eq {mask : CpuSet}
    (h : T.cpuNodeMap (s.proc tid).pinnedProcessor = node) :
    tid ∈ (movedToNode T tid node mask s).nodeTidMap n ↔ tid ∈ s.nodeTidMap n := by
  simp only [movedToNode]
  split_ifs <;> simp

/-- A thread that moves leaves the set of its old node, and that of the new node as well. -/
theorem mem_movedToNode_self {mask : CpuSet}
    (h : T.cpuNodeMap (s.proc tid).pinnedProcessor ≠ node)
    (hcpu : (s.proc tid).pinnedProcessor ≠ ((s.proc tid).onNode node mask).pinnedProcessor) :
    tid ∈ (movedToNode T tid node mask s).nodeTidMap n ↔
      tid ∈ s.nodeTidMap n ∧ n ≠ T.cpuNodeMap (s.proc tid).pinnedProcessor ∧ n ≠ node := by
  simp only [movedToNode]
  rw [if_neg hcpu, if_neg h]
  simp [and_assoc]

/-! ### Threads that an operation does not touch -/

/-- What the system knows about thread `t` is the same in two states. -/
structure SameThread (s s' : System R) (t : Pid) : Prop where
  proc : s'.proc t = s.proc t
  affinity : s'.kernel.affinity t = s.kernel.affinity t
  profiler : s'.kernel.profilerAffinity = s.kernel.profilerAffinity
  cpu : ∀ c, t ∈ s'.cpuTidMap c ↔ t ∈ s.cpuTidMap c
  node : ∀ n, t ∈ s'.nodeTidMap n ↔ t ∈ s.nodeTidMap n

theorem SameThread.refl (s : System R) (t : Pid) : SameThread s s t :=
  ⟨rfl, rfl, rfl, fun _ => Iff.rfl, fun _ => Iff.rfl⟩

theorem SameThread.trans {s s' s'' : System R} (h : SameThread s s' t)
    (h' : SameThread s' s'' t) : SameThread s s'' t :=
  ⟨h'.proc.trans h.proc, h'.affinity.trans h.affinity, h'.profiler.trans h.profiler,
    fun c => (h'.cpu c).trans (h.cpu c), fun n => (h'.node n).trans (h.node n)⟩

/-- A refused call does not touch any thread. -/
theorem refused_sameThread : SameThread s s.refused t :=
  ⟨rfl, rfl, rfl, fun _ => Iff.rfl, fun _ => Iff.rfl⟩

theorem pinThreadToCpu_sameThread (h : t ≠ tid) :
    SameThread s (pinThreadToCpu T tid cpu s).2 t := by
  obtain ⟨-, -, -, heq⟩ | ⟨-, -, -, heq⟩ | ⟨-, heq⟩ | ⟨-, -, -, heq⟩ :=
    pinThreadToCpu_cases T tid cpu s
  · rw [heq]
    exact SameThread.refl s t
  · rw [heq]
    refine ⟨movedToCpu_proc_of_ne h, ?_, by simp, fun c => mem_movedToCpu_of_ne h, fun n => ?_⟩
    · simpa using s.kernel.granted_affinity_of_ne tid _ h
    · simp only [movedToCpu]
      split_ifs <;> simp [h]
  · rw [heq]
    exact SameThread.refl s t
  · rw [heq]
    exact refused_sameThread

theorem pinThreadToNode_sameThread (h : t ≠ tid) :
    SameThread s (pinThreadToNode T tid node s).2 t := by
  obtain ⟨-, mask, -, -, heq⟩ | ⟨-, heq⟩ | ⟨-, mask, -, -, heq⟩ :=
    pinThreadToNode_cases T tid node s
  · rw [heq]
    refine ⟨movedToNode_proc_of_ne h, ?_, by simp, fun c => ?_, fun n => mem_movedToNode_of_ne h⟩
    · simpa using s.kernel.granted_affinity_of_ne tid _ h
    · simp only [movedToNode]
      split_ifs <;> simp [h]
  · rw [heq]
    exact SameThread.refl s t
  · rw [heq]
    exact refused_sameThread

theorem pinProcessToCpu_sameThread (h : t ≠ tid) :
    SameThread s (pinProcessToCpu T tid s).2 t := by
  obtain ⟨-, -, heq⟩ | ⟨-, p, -, heq⟩ | ⟨-, heq⟩ := pinProcessToCpu_cases T tid s
  · rw [heq]
    exact ⟨rfl, rfl, rfl, fun c => by simp [h], fun n => by simp [h]⟩
  · rw [heq]
    refine ⟨by simp [store_proc_of_ne h], ?_, rfl, fun c => by simp [h], fun n => by simp [h]⟩
    exact s.kernel.granted_affinity_of_ne tid _ h
  · rw [heq]
    exact refused_sameThread

theorem pinProcessToNode_sameThread (h : t ≠ tid) :
    SameThread s (pinProcessToNode T tid s).2 t := by
  obtain ⟨mask, p, -, -, -, heq⟩ | heq | heq := pinProcessToNode_cases T tid s
  · rw [heq]
    refine ⟨by simp [store_proc_of_ne h], ?_, rfl, fun c => by simp, fun n => by simp [h]⟩
    exact s.kernel.granted_affinity_of_ne tid _ h
  · rw [heq]
    exact SameThread.refl s t
  · rw [heq]
    exact refused_sameThread

theorem unpinThread_sameThread (h : t ≠ tid) : SameThread s (unpinThread tid s).2 t := by
  obtain ⟨k, ⟨-, rfl⟩ | ⟨-, rfl⟩, heq⟩ | heq := unpinThread_cases tid s
  · rw [heq]
    exact ⟨rfl, rfl, rfl, fun c => by simp [h], fun n => by simp [h]⟩
  · rw [heq]
    refine ⟨rfl, ?_, rfl, fun c => by simp [h], fun n => by simp [h]⟩
    exact s.kernel.granted_affinity_of_ne tid _ h
  · rw [heq]
    exact refused_sameThread

theorem refresh_sameThread {st : Stat R} (h : t ≠ tid) :
    SameThread s (refresh T tid st s) t :=
  ⟨store_proc_of_ne h, rfl, rfl, fun _ => Iff.rfl, fun _ => Iff.rfl⟩

theorem dropProcess_sameThread {d : Pid × ProcInfo R} (h : t ≠ d.1) :
    SameThread s (dropProcess T s d) t := by
  obtain ⟨-, heq⟩ | ⟨-, heq⟩ | ⟨-, heq⟩ := Process.unpin_cases d.1 (s.proc d.1) s.kernel
  · exact ⟨store_proc_of_ne h, by simp [dropProcess, heq], by simp [dropProcess, heq],
      fun _ => Iff.rfl, fun _ => Iff.rfl⟩
  · refine ⟨store_proc_of_ne h, ?_, by simp [dropProcess, heq], fun _ => Iff.rfl,
      fun _ => Iff.rfl⟩
    simpa [dropProcess, heq] using s.kernel.granted_affinity_of_ne d.1 _ h
  · exact ⟨store_proc_of_ne h, by simp [dropProcess, heq], by simp [dropProcess, heq],
      fun _ => Iff.rfl, fun _ => Iff.rfl⟩

/-! ### Removal -/

theorem mem_removeInvalidData {pids : List Pid} :
    (∀ c, t ∈ (s.removeInvalidData pids).cpuTidMap c ↔ t ∈ s.cpuTidMap c ∧ t ∉ pids) ∧
      ∀ n, t ∈ (s.removeInvalidData pids).nodeTidMap n ↔ t ∈ s.nodeTidMap n ∧ t ∉ pids := by
  induction pids generalizing s with
  | nil => simp [removeInvalidData]
  | cons pid pids ih =>
    obtain ⟨hcpu, hnode⟩ := @ih (s.forget pid)
    refine ⟨fun c => (hcpu c).trans ?_, fun n => (hnode n).trans ?_⟩
    · simp only [forget, OrderedSet.mem_erase, List.mem_cons]
      tauto
    · simp only [forget, OrderedSet.mem_erase, List.mem_cons]
      tauto

theorem removeInvalidData_proc {pids : List Pid} :
    (s.removeInvalidData pids).proc = s.proc ∧
      (s.removeInvalidData pids).kernel = s.kernel := by
  induction pids generalizing s with
  | nil => exact ⟨rfl, rfl⟩
  | cons pid pids ih => exact @ih (s.forget pid)

theorem foldl_dropProcess_sameThread {dropped : List (Pid × ProcInfo R)}
    (h : t ∉ dropped.map Prod.fst) : SameThread s (dropped.foldl (dropProcess T) s) t := by
  induction dropped generalizing s with
  | nil => exact SameThread.refl s t
  | cons d dropped ih =>
    rw [List.map_cons, List.mem_cons, not_or] at h
    exact (dropProcess_sameThread h.1).trans (ih h.2)

/-- A process dropped from the tree is not pinned afterwards. -/
theorem foldl_dropProcess_pinned {dropped : List (Pid × ProcInfo R)}
    (h : t ∈ dropped.map Prod.fst ∨ (s.proc t).pinned = false) :
    ((dropped.foldl (dropProcess T) s).proc t).pinned = false := by
  induction dropped generalizing s with
  | nil => simpa using h
  | cons d dropped ih =>
    refine ih ?_
    by_cases hd : t = d.1
    · subst hd
      exact .inr (by simp [dropProcess])
    · refine h.imp (fun hmem => ?_) fun hs => ?_
      · simpa [hd] using hmem
      · rw [(dropProcess_sameThread hd).proc]
        exact hs

/-- Removal does not touch the threads that stay in the tree. -/
theorem remove_sameThread {dropped : List (Pid × ProcInfo R)} (h : t ∉ dropped.map Prod.fst) :
    SameThread s (s.remove T dropped) t := by
  have hdrop : SameThread s (dropped.foldl (dropProcess T) s) t :=
    foldl_dropProcess_sameThread h
  refine hdrop.trans ⟨?_, ?_, ?_, fun c => ?_, fun n => ?_⟩
  · exact congrFun removeInvalidData_proc.1 t
  · exact congrFun (congrArg Kernel.affinity removeInvalidData_proc.2) t
  · exact congrArg Kernel.profilerAffinity removeInvalidData_proc.2
  · exact (mem_removeInvalidData.1 c).trans (and_iff_left h)
  · exact (mem_removeInvalidData.2 n).trans (and_iff_left h)

/-- A removed thread is neither pinned nor listed. -/
theorem remove_of_mem {dropped : List (Pid × ProcInfo R)} (h : t ∈ dropped.map Prod.fst) :
    ((s.remove T dropped).proc t).pinned = false ∧
      (∀ c, t ∉ (s.remove T dropped).cpuTidMap c) ∧
        ∀ n, t ∉ (s.remove T dropped).nodeTidMap n := by
  refine ⟨?_, fun c hc => ((mem_removeInvalidData.1 c).mp hc).2 h,
    fun n hn => ((mem_removeInvalidData.2 n).mp hn).2 h⟩
  rw [remove, congrFun removeInvalidData_proc.1 t]
  exact foldl_dropProcess_pinned (.inl h)

end System

end Thanos
