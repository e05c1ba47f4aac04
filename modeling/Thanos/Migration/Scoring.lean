import Thanos.Migration.Cell

/-!
# Scoring migrations

The functions with which the planners of `migration::thread` score a migration: the tickets of
a thread at a node or a CPU, the best partner for an interchange, and the choice among the
candidate migrations of a thread. They read the global tables (`Globals`), which stay as they
are while a plan is made.

* **Partners** (`bestPidForSwap_some`): the partner found is migratable, not involved yet, and
  its tickets are those of its score.
* **Choice** (`selectMigration_mem`, `selectMigration_eq_none`): one of the candidates is chosen
  whenever there are any.
-/

namespace Thanos

/-- The global tables that a planner reads. -/
structure Globals (R : Type) where
  topology : Topology
  settings : Settings R
  perfTable : PerfTable R
  system : System R

variable {R : Type} [RealT R]

namespace Globals

variable (g : Globals R)

/-! ### Tickets -/

/-- `perf_table.performance(tid)`. -/
def performance (tid : Pid) : R :=
  g.perfTable.performance g.settings g.system tid

/-- `perf_table.rel_performance(tid)`. -/
def relPerformance (tid : Pid) : R :=
  g.perfTable.relPerformance g.settings g.system tid

/-- `perf_table.preferred_node(tid)`. -/
def preferredNode (tid : Pid) : Node :=
  g.perfTable.preferredNode g.settings g.topology tid

/-- `is_under_performance`. -/
def isUnderPerformance (pid : Pid) : Bool :=
  decide (g.relPerformance pid < g.settings.perfThreshold)

/-- `tickets_rm3d`. -/
def ticketsRm3d (pid : Pid) (srcNode dstNode : Node) : Tickets R :=
  let perf := g.perfTable.getRm3d g.settings pid
  if perf.perfNode dstNode == performanceInvalidValue then g.settings.ticketsMemCellNoData
  else if perf.perfNode dstNode < perf.perfNode srcNode then g.settings.ticketsMemCellWorse
  else g.settings.ticketsMemCellBetter

/-- `tickets_pref_node`: the nearer to the preferred node, the more. -/
def ticketsPrefNode (pid : Pid) (dstNode : Node) : Tickets R :=
  let prefNode := g.preferredNode pid
  let tickets := g.settings.ticketsPrefNode
  { value := tickets.value * real g.topology.localDistance /
      real (g.topology.numaDistance dstNode prefNode)
    mask := if dstNode = prefNode then tickets.mask else 0 }

/-- `tickets_under_performance`. -/
def ticketsUnderPerformance (pid : Pid) : Tickets R :=
  if g.isUnderPerformance pid then g.settings.ticketsUnderPerf else Tickets.zero

/-- `tickets_free_core`. -/
def ticketsFreeCore (dstCpu : Cpu) : Tickets R :=
  if g.system.isCpuFree dstCpu then g.settings.ticketsFreeCore else Tickets.zero

/-- `tickets_free_core_in_node`. -/
def ticketsFreeCoreInNode (dstNode : Node) : Tickets R :=
  if g.system.isCpuFreeInNode g.topology dstNode then g.settings.ticketsFreeCore else Tickets.zero

/-- `tickets_node(pid, src_node, dst_node)`. -/
def ticketsNodeFrom (pid : Pid) (srcNode dstNode : Node) : Tickets R :=
  g.ticketsRm3d pid srcNode dstNode + g.ticketsPrefNode pid dstNode +
    g.ticketsFreeCoreInNode dstNode + g.ticketsUnderPerformance pid

/-- `tickets_node(pid, dst_node)`. -/
def ticketsNode (pid : Pid) (dstNode : Node) : Tickets R :=
  g.ticketsNodeFrom pid (g.system.proc pid).pinnedNumaNode dstNode

/-- `tickets_cpu(pid, src_cpu, dst_cpu)`. -/
def ticketsCpuFrom (pid : Pid) (srcCpu dstCpu : Cpu) : Tickets R :=
  let srcNode := g.topology.cpuNodeMap srcCpu
  let dstNode := g.topology.cpuNodeMap dstCpu
  g.ticketsRm3d pid srcNode dstNode + g.ticketsPrefNode pid dstNode + g.ticketsFreeCore dstCpu +
    g.ticketsUnderPerformance pid

/-- `tickets_cpu(pid, dst_cpu)`, which passes the two CPUs on to `tickets_node`. -/
def ticketsCpu (pid : Pid) (dstCpu : Cpu) : Tickets R :=
  g.ticketsNodeFrom pid (g.system.proc pid).pinnedProcessor dstCpu

/-! ### Cells -/

/-- The simple cell of a thread, with its process and its present performance. -/
def simpleCell (node : Bool) (tid : Pid) (dest prev : ℕ) : SimpleMigrationCell R where
  tid := tid
  pid := g.system.pidFromTid tid
  dest := dest
  prev := prev
  node := node
  prevPerf := g.performance tid

/-! ### Partners for an interchange -/

/-- The body of the loops of `best_pid_for_swap_cpu` and `best_pid_for_swap_node`. -/
def betterSwap (score : Pid → Tickets R) (migratedPids : OrderedSet Pid)
    (best : Pid × Tickets R) (auxTid : Pid) : Pid × Tickets R :=
  if g.system.isMigratable auxTid = false then best
  else if auxTid ∈ migratedPids then best
  else if best.2 < score auxTid then (auxTid, score auxTid) else best

/-- The search of `best_pid_for_swap_cpu` and `best_pid_for_swap_node` among some threads. The
identifier 0 stands for no thread. -/
def bestPidForSwap (tids : OrderedSet Pid) (score : Pid → Tickets R)
    (migratedPids : OrderedSet Pid) : Option (Pid × Tickets R) :=
  let swap := tids.toList.foldl (g.betterSwap score migratedPids) (0, Tickets.zero)
  if swap.1 = 0 then none else some swap

/-- `best_pid_for_swap_cpu`. -/
def bestPidForSwapCpu (srcCpu dstCpu : Cpu) (migratedPids : OrderedSet Pid) :
    Option (Pid × Tickets R) :=
  g.bestPidForSwap (g.system.nonIdleTidsFromCpu dstCpu)
    (fun auxTid => g.ticketsCpuFrom auxTid dstCpu srcCpu) migratedPids

/-- `best_pid_for_swap_node`. -/
def bestPidForSwapNode (srcNode dstNode : Node) (migratedPids : OrderedSet Pid) :
    Option (Pid × Tickets R) :=
  g.bestPidForSwap (g.system.nonIdleTidsFromNode dstNode)
    (fun auxTid => g.ticketsNodeFrom auxTid dstNode srcNode) migratedPids

variable {g} {score : Pid → Tickets R} {migratedPids tids : OrderedSet Pid} {best : Pid × Tickets R}

/-- The loop finds nothing, or an admissible thread with its score. -/
private theorem foldl_betterSwap {l : List Pid}
    (h : best.1 = 0 ∨ best.1 ∈ tids ∧ g.system.isMigratable best.1 = true ∧
      best.1 ∉ migratedPids ∧ best.2 = score best.1)
    (hl : ∀ t ∈ l, t ∈ tids) :
    (l.foldl (g.betterSwap score migratedPids) best).1 = 0 ∨
      let swap := l.foldl (g.betterSwap score migratedPids) best
      swap.1 ∈ tids ∧ g.system.isMigratable swap.1 = true ∧ swap.1 ∉ migratedPids ∧
        swap.2 = score swap.1 := by
  induction l generalizing best with
  | nil => exact h
  | cons auxTid l ih =>
    refine ih ?_ fun t ht => hl t (List.mem_cons_of_mem auxTid ht)
    unfold betterSwap
    split_ifs with hmig hmem hlt
    · exact h
    · exact h
    · have hmig' : g.system.isMigratable auxTid = true := by simpa using hmig
      exact .inr ⟨hl auxTid List.mem_cons_self, hmig', hmem, rfl⟩
    · exact h

/-- **Partners.** -/
theorem bestPidForSwap_some (h : g.bestPidForSwap tids score migratedPids = some best) :
    best.1 ∈ tids ∧ g.system.isMigratable best.1 = true ∧ best.1 ∉ migratedPids ∧
      best.2 = score best.1 := by
  simp only [bestPidForSwap, Option.ite_none_left_eq_some] at h
  obtain ⟨hzero, h⟩ := h
  obtain rfl := Option.some.inj h
  exact (foldl_betterSwap (.inl rfl) fun t ht => ht).resolve_left hzero

end Globals

/-! ### The choice among the candidates -/

section Select

variable {migrations : List (MigrationCell R)} {mig best : MigrationCell R}

/-- The loop of `select_migration`: of equal tickets the first are kept. -/
def selectLoop (best : MigrationCell R) (migrations : List (MigrationCell R)) : MigrationCell R :=
  migrations.foldl
    (fun best mig => if best.tickets.value < mig.tickets.value then mig else best) best

/-- `select_migration`, without its randomness, for the candidates of a thread. -/
def selectMigration : List (MigrationCell R) → Option (MigrationCell R)
  | [] => none
  | mig :: migrations => some (selectLoop mig migrations)

theorem selectLoop_mem : selectLoop best migrations ∈ best :: migrations := by
  induction migrations generalizing best with
  | nil => exact List.mem_singleton.mpr rfl
  | cons mig migrations ih =>
    rw [selectLoop, List.foldl_cons]
    split_ifs
    · exact List.mem_cons_of_mem best ih
    · have hmem : selectLoop best migrations ∈ best :: migrations := ih
      rw [List.mem_cons] at hmem ⊢
      exact hmem.imp_right (List.mem_cons_of_mem mig)

/-- **Choice.** -/
theorem selectMigration_mem (h : selectMigration migrations = some mig) : mig ∈ migrations := by
  cases migrations with
  | nil => simp [selectMigration] at h
  | cons mig' migrations =>
    obtain rfl := Option.some.inj h
    exact selectLoop_mem

theorem selectMigration_eq_none : selectMigration migrations = none ↔ migrations = [] := by
  cases migrations with
  | nil => simp [selectMigration]
  | cons mig migrations => simp [selectMigration]

end Select

end Thanos
