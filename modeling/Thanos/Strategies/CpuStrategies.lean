import Thanos.Migration.Planning

/-!
# The strategies that move threads between CPUs

CIMAR, IMAR2 and LBMA consider every CPU of every other node as a destination of a thread: a
free CPU for a move, another one for an interchange with its best partner. CIMAR requires that
tickets be gained, the other two do not. RANDOM draws one destination and one partner.

CIMAR and IMAR2 plan for the worst threads, LBMA and RANDOM for threads drawn from the
performance table. In all of them a candidate names its own thread and at most one partner,
which is migratable and not involved yet (`Partnered`).

What a draw of the random source returns is data. The draws made while a thread is being
planned for are given thread by thread, as a thread is planned for at most once.
-/

namespace Thanos

variable {R : Type} [RealT R]

/-! ### Random draws -/

/-- The loop with which LBMA and RANDOM take `count` threads of the performance table that have
not been taken yet. The order of the draws stands for that of the hash map in which the source
collects the threads; `none` is a loop that has not ended with the draws given. -/
def takeRandom (tids : List Pid) : ℕ → List Pid → List ℕ → Option (List Pid)
  | 0, taken, _ => some taken
  | _ + 1, _, [] => none
  | count + 1, taken, draw :: draws =>
    match tids[rnd 0 tids.length draw]? with
    | none => none
    | some tid =>
      if tid ∈ taken then takeRandom tids (count + 1) taken draws
      else takeRandom tids count (taken ++ [tid]) draws

/-- The threads that LBMA and RANDOM take. The source also collects the threads that can be
migrated, and does not use them. -/
def Globals.randomTids (g : Globals R) (draws : List ℕ) : Option (List Pid) :=
  takeRandom g.perfTable.tids (min g.settings.maxThreadMigrations g.perfTable.tids.length) [] draws

/-! ### Destinations -/

/-- The candidates for all CPUs of the nodes other than that of the source, the closest nodes
first. -/
def Globals.cpuCandidates (g : Globals R) (srcCpu : Cpu)
    (candidate : Cpu → Option (MigrationCell R)) : List (MigrationCell R) :=
  let srcNode := g.topology.cpuNodeMap srcCpu
  (g.topology.nodesByDistance srcNode).flatMap fun dstNode =>
    if srcNode = dstNode then [] else (g.topology.nodeCpuMap dstNode).filterMap candidate

namespace Cimar

variable (g : Globals R)

/-- The body of the loops of `get_migration` over the destinations. -/
def candidate (migratedPids : OrderedSet Pid) (tid : Pid) (dstCpu : Cpu) :
    Option (MigrationCell R) :=
  let srcCpu := (g.system.proc tid).pinnedProcessor
  let srcTickets := g.ticketsCpu tid srcCpu
  let mc := g.simpleCell false tid dstCpu srcCpu
  let dstTickets := g.ticketsCpu tid dstCpu
  if g.system.isCpuFree dstCpu = true ∧ srcTickets.value < dstTickets.value then
    some ⟨[mc], dstTickets⟩
  else
    match g.bestPidForSwapCpu srcCpu dstCpu migratedPids with
    | none => none
    | some (swapTid, swapTickets) =>
      let currentTickets := srcTickets + g.ticketsCpu swapTid dstCpu
      let estimatedTickets := dstTickets + swapTickets
      if currentTickets < estimatedTickets then
        some ⟨[mc, g.simpleCell false swapTid srcCpu dstCpu], estimatedTickets⟩
      else none

/-- `get_migration`. -/
def getMigration : Candidates R := fun migratedPids tid =>
  g.cpuCandidates (g.system.proc tid).pinnedProcessor (candidate g migratedPids tid)

/-- The threads over which `get_migration_list` walks. -/
def worstTids : List Pid :=
  (g.worstTidPerf g.system.isMigratable).map Prod.snd

/-- `perform_migration_algorithm`. -/
def performMigrationAlgorithm : List (MigrationCell R) :=
  getMigrationList (getMigration g) (worstTids g)

end Cimar

/-- The body of the loops of `get_migration` in IMAR2 and LBMA, which ask for no gain; the
process and the performance recorded for the partner are those of the thread `swapRecord`. -/
def Globals.candidateWithoutGain (g : Globals R) (swapRecord : Pid → Pid)
    (migratedPids : OrderedSet Pid) (tid : Pid) (dstCpu : Cpu) : Option (MigrationCell R) :=
  let srcCpu := (g.system.proc tid).pinnedProcessor
  let mc := g.simpleCell false tid dstCpu srcCpu
  let dstTickets := g.ticketsCpu tid dstCpu
  if g.system.isCpuFree dstCpu then some ⟨[mc], dstTickets⟩
  else
    match g.bestPidForSwapCpu srcCpu dstCpu migratedPids with
    | none => none
    | some (swapTid, swapTickets) =>
      let mc2 := { g.simpleCell false (swapRecord swapTid) srcCpu dstCpu with tid := swapTid }
      some ⟨[mc, mc2], dstTickets + swapTickets⟩

namespace Imar2

variable (g : Globals R)

/-- `get_migration`. -/
def getMigration : Candidates R := fun migratedPids tid =>
  g.cpuCandidates (g.system.proc tid).pinnedProcessor
    (g.candidateWithoutGain (fun swapTid => swapTid) migratedPids tid)

/-- The threads over which `get_migration_list` walks; whether they are migratable is not
asked. -/
def worstTids : List Pid :=
  (g.worstTidPerf fun _ => true).map Prod.snd

/-- `perform_migration_algorithm`. -/
def performMigrationAlgorithm : List (MigrationCell R) :=
  getMigrationList (getMigration g) (worstTids g)

end Imar2

namespace Lbma

variable (g : Globals R)

/-- `get_migration`, which records the process and the performance of the thread itself for
its partner. -/
def getMigration : Candidates R := fun migratedPids tid =>
  g.cpuCandidates (g.system.proc tid).pinnedProcessor
    (g.candidateWithoutGain (fun _ => tid) migratedPids tid)

/-- `perform_migration_algorithm`. -/
def performMigrationAlgorithm (draws : List ℕ) : Option (List (MigrationCell R)) :=
  (g.randomTids draws).map (getMigrationList (getMigration g))

end Lbma

namespace Random

/-- The values drawn while a thread is planned for. -/
structure Draws where
  /-- For the destination node. -/
  node : ℕ
  /-- For the CPU of the destination node. -/
  cpu : ℕ
  /-- For the partner, attempt by attempt. -/
  attempt : ℕ → ℕ

variable (g : Globals R)

/-- The loop that looks for a partner: as many attempts as there are threads. -/
def swapTid (draw : ℕ → ℕ) (tids migratedPids : OrderedSet Pid) : Option Pid :=
  (List.range tids.size).findSome? fun attempt =>
    (tids.toList[rnd 0 tids.size (draw attempt)]?).filter fun swapTid =>
      g.system.isMigratable swapTid && !decide (swapTid ∈ migratedPids)

/-- The destination node drawn. -/
def dstNode (draw : ℕ) : Node :=
  if 0 < g.topology.maxNode then rnd 0 g.topology.maxNode draw else 0

/-- The candidate for a destination drawn: a move to a free CPU, else an interchange with the
partner found, if any. -/
def candidate (draw : ℕ → ℕ) (migratedPids : OrderedSet Pid) (tid : Pid) (dstNode : Node)
    (dstCpu : Cpu) : List (MigrationCell R) :=
  let srcCpu := (g.system.proc tid).pinnedProcessor
  let tickets := g.ticketsRm3d tid (g.topology.cpuNodeMap srcCpu) dstNode +
    g.ticketsPrefNode tid dstNode
  let mc := g.simpleCell false tid dstCpu srcCpu
  if g.system.isCpuFree dstCpu then [⟨[mc], tickets + g.settings.ticketsFreeCore⟩]
  else
    match swapTid g draw (g.system.cpuTidMap dstCpu) migratedPids with
    | none => []
    | some swapTid =>
      [⟨[mc, g.simpleCell false swapTid srcCpu dstCpu], tickets + g.ticketsCpu swapTid srcCpu⟩]

/-- `get_migration`; the result is `none` when the node drawn has no CPU. -/
def getMigration (draws : Pid → Draws) (migratedPids : OrderedSet Pid) (tid : Pid) :
    Option (List (MigrationCell R)) :=
  let dstNode := dstNode g (draws tid).node
  let cpusNode := g.topology.numOfCpusIn dstNode
  (g.topology.nodeCpuMap dstNode)[rnd 0 cpusNode (draws tid).cpu]?.map
    (candidate g (draws tid).attempt migratedPids tid dstNode)

/-- `perform_migration_algorithm`. -/
def performMigrationAlgorithm (selection : List ℕ) (draws : Pid → Draws) :
    Option (List (MigrationCell R)) :=
  (g.randomTids selection).bind (tryGetMigrationList (getMigration g draws))

end Random

/-! ### Partners -/

/-- A candidate names its own thread and at most one other, which is migratable and not
involved yet. -/
def Partnered (g : Globals R) (migratedPids : OrderedSet Pid) (tid : Pid)
    (cell : MigrationCell R) : Prop :=
  cell.tids = [tid] ∨ ∃ swapTid, cell.tids = [tid, swapTid] ∧
    g.system.isMigratable swapTid = true ∧ swapTid ∉ migratedPids

variable {g : Globals R} {migratedPids : OrderedSet Pid} {tid : Pid} {cell : MigrationCell R}
  {swapRecord : Pid → Pid} {dstCpu : Cpu}

omit [RealT R] in
theorem exists_candidate {srcCpu : Cpu} {candidate : Cpu → Option (MigrationCell R)}
    (h : cell ∈ g.cpuCandidates srcCpu candidate) : ∃ dstCpu, candidate dstCpu = some cell := by
  obtain ⟨dstNode, -, hcell⟩ := List.mem_flatMap.mp h
  split_ifs at hcell with hsame
  · exact absurd hcell List.not_mem_nil
  · obtain ⟨dstCpu, -, hcand⟩ := List.mem_filterMap.mp hcell
    exact ⟨dstCpu, hcand⟩

theorem Cimar.partnered (h : cell ∈ getMigration g migratedPids tid) :
    Partnered g migratedPids tid cell := by
  obtain ⟨dstCpu, hcand⟩ := exists_candidate h
  simp only [candidate] at hcand
  split_ifs at hcand with hmove
  · obtain rfl := Option.some.inj hcand
    exact .inl rfl
  · cases hbest : g.bestPidForSwapCpu (g.system.proc tid).pinnedProcessor dstCpu migratedPids with
    | none => simp [hbest] at hcand
    | some best =>
      obtain ⟨-, hmig, hfresh, -⟩ := Globals.bestPidForSwap_some hbest
      simp only [hbest, Option.ite_none_right_eq_some] at hcand
      obtain rfl := Option.some.inj hcand.2
      exact .inr ⟨best.1, rfl, hmig, hfresh⟩

theorem candidateWithoutGain_partnered
    (h : g.candidateWithoutGain swapRecord migratedPids tid dstCpu = some cell) :
    Partnered g migratedPids tid cell := by
  simp only [Globals.candidateWithoutGain] at h
  split_ifs at h with hfree
  · obtain rfl := Option.some.inj h
    exact .inl rfl
  · cases hbest : g.bestPidForSwapCpu (g.system.proc tid).pinnedProcessor dstCpu migratedPids with
    | none => simp [hbest] at h
    | some best =>
      obtain ⟨-, hmig, hfresh, -⟩ := Globals.bestPidForSwap_some hbest
      simp only [hbest] at h
      obtain rfl := Option.some.inj h
      exact .inr ⟨best.1, rfl, hmig, hfresh⟩

theorem Imar2.partnered (h : cell ∈ getMigration g migratedPids tid) :
    Partnered g migratedPids tid cell := by
  obtain ⟨dstCpu, hcand⟩ := exists_candidate h
  exact candidateWithoutGain_partnered hcand

theorem Lbma.partnered (h : cell ∈ getMigration g migratedPids tid) :
    Partnered g migratedPids tid cell := by
  obtain ⟨dstCpu, hcand⟩ := exists_candidate h
  exact candidateWithoutGain_partnered hcand

omit [RealT R] in
theorem Random.swapTid_some {draw : ℕ → ℕ} {tids : OrderedSet Pid} {t : Pid}
    (h : swapTid g draw tids migratedPids = some t) :
    g.system.isMigratable t = true ∧ t ∉ migratedPids := by
  obtain ⟨attempt, -, hattempt⟩ := List.exists_of_findSome?_eq_some h
  have hcond := (Option.filter_eq_some_iff.mp hattempt).2
  simpa using hcond

theorem Random.partnered {draws : Pid → Draws} {migr : List (MigrationCell R)}
    (h : getMigration g draws migratedPids tid = some migr) (hcell : cell ∈ migr) :
    Partnered g migratedPids tid cell := by
  obtain ⟨dstCpu, -, rfl⟩ := Option.map_eq_some_iff.mp h
  simp only [candidate] at hcell
  split_ifs at hcell with hfree
  · obtain rfl := List.mem_singleton.mp hcell
    exact .inl rfl
  · cases hswap : swapTid g (draws tid).attempt (g.system.cpuTidMap dstCpu) migratedPids with
    | none => simp [hswap] at hcell
    | some swap =>
      obtain ⟨hmig, hfresh⟩ := swapTid_some hswap
      simp only [hswap, List.mem_singleton] at hcell
      obtain rfl := hcell
      exact .inr ⟨swap, rfl, hmig, hfresh⟩

omit [RealT R] in
/-- All threads of a candidate but its own are migratable. -/
theorem Partnered.tids (h : Partnered g migratedPids tid cell) :
    tid ∈ cell.tids ∧ ∀ t ∈ cell.tids, t = tid ∨ g.system.isMigratable t = true := by
  obtain htids | ⟨swapTid, htids, hmig, -⟩ := h
  · simp [htids]
  · simp [htids, hmig]

theorem Cimar.migratable_of_plan :
    ∀ t ∈ planTids (performMigrationAlgorithm g), g.system.isMigratable t = true := by
  refine forall_planTids fun tid htid _ _ hcell t ht => ?_
  obtain ⟨entry, hentry, rfl⟩ := List.mem_map.mp htid
  obtain rfl | hmig := (partnered hcell).tids.2 t ht
  · exact Globals.eligible_of_mem_worstTidPerf hentry
  · exact hmig

/-! ### Threads without a destination -/

/-- No CPU of another node is free, and on none of them is there a partner for the thread. -/
def Globals.NoDestination (g : Globals R) (migratedPids : OrderedSet Pid) (tid : Pid) : Prop :=
  let srcCpu := (g.system.proc tid).pinnedProcessor
  let srcNode := g.topology.cpuNodeMap srcCpu
  ∀ dstNode ∈ g.topology.nodesByDistance srcNode, srcNode ≠ dstNode →
    ∀ dstCpu ∈ g.topology.nodeCpuMap dstNode,
      g.system.isCpuFree dstCpu = false ∧ g.bestPidForSwapCpu srcCpu dstCpu migratedPids = none

/-- The CPU drawn is not free, and no partner is drawn on it. -/
def Random.NoDestination (g : Globals R) (draws : Pid → Draws) (migratedPids : OrderedSet Pid)
    (tid : Pid) : Prop :=
  let dstNode := dstNode g (draws tid).node
  let cpusNode := g.topology.numOfCpusIn dstNode
  ∀ dstCpu, (g.topology.nodeCpuMap dstNode)[rnd 0 cpusNode (draws tid).cpu]? = some dstCpu →
    g.system.isCpuFree dstCpu = false ∧
      swapTid g (draws tid).attempt (g.system.cpuTidMap dstCpu) migratedPids = none

theorem candidateWithoutGain_eq_none :
    g.candidateWithoutGain swapRecord migratedPids tid dstCpu = none ↔
      g.system.isCpuFree dstCpu = false ∧
        g.bestPidForSwapCpu (g.system.proc tid).pinnedProcessor dstCpu migratedPids = none := by
  simp only [Globals.candidateWithoutGain]
  cases hfree : g.system.isCpuFree dstCpu with
  | true => simp
  | false =>
    cases hbest : g.bestPidForSwapCpu (g.system.proc tid).pinnedProcessor dstCpu migratedPids with
    | none => simp
    | some best => simp

/-- In IMAR2 and LBMA a thread has no candidate exactly when it has no destination. -/
theorem candidatesWithoutGain_eq_nil :
    g.cpuCandidates (g.system.proc tid).pinnedProcessor
        (g.candidateWithoutGain swapRecord migratedPids tid) = [] ↔
      g.NoDestination migratedPids tid := by
  simp only [Globals.cpuCandidates, List.flatMap_eq_nil_iff, ite_eq_left_iff,
    List.filterMap_eq_nil_iff, candidateWithoutGain_eq_none]
  rfl

theorem Random.getMigration_eq_nil {draws : Pid → Draws} :
    (getMigration g draws migratedPids tid).getD [] = [] ↔
      NoDestination g draws migratedPids tid := by
  simp only [getMigration, NoDestination]
  cases hcpu : (g.topology.nodeCpuMap (dstNode g (draws tid).node))[rnd 0
      (g.topology.numOfCpusIn (dstNode g (draws tid).node)) (draws tid).cpu]? with
  | none => simp
  | some dstCpu =>
    simp only [Option.map_some, Option.getD_some, Option.some.injEq, forall_eq', candidate]
    cases hfree : g.system.isCpuFree dstCpu with
    | true => simp
    | false =>
      cases hswap : swapTid g (draws tid).attempt (g.system.cpuTidMap dstCpu) migratedPids with
      | none => simp
      | some swap => simp

end Thanos
