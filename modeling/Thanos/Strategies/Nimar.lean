import Thanos.Migration.Planning
import Thanos.SystemInfo.PlacementRuns

/-!
# NIMAR

NIMAR moves threads between nodes. For each of the worst threads it considers the nodes from
the closest to the farthest: a node with a free core is a candidate if the thread gains tickets
there, and otherwise an interchange with the best partner in the node is one if the two threads
gain tickets together.

* **Candidates** (`mem_getMigration`): every candidate is such a move or such an interchange.
* **Plan** (`performMigrationAlgorithm_correct`): a plan is short enough, names no thread twice
  and migratable threads only, and every cell of it brings a gain.
-/

namespace Thanos.Nimar

variable {R : Type} [RealT R] (g : Globals R)

/-- The body of the loop of `get_migration` over the destinations. -/
def candidate (migratedPids : OrderedSet Pid) (tid : Pid) (dstNode : Node) :
    Option (MigrationCell R) :=
  let srcNode := (g.system.proc tid).pinnedNumaNode
  let srcTickets := g.ticketsNode tid srcNode
  if srcNode = dstNode then none
  else
    let mc := g.simpleCell true tid dstNode srcNode
    let dstTickets := g.ticketsNode tid dstNode
    -- a free core: possible simple migration
    if g.system.isCpuFreeInNode g.topology dstNode = true ∧ srcTickets < dstTickets then
      some ⟨[mc], dstTickets⟩
    else
      match g.bestPidForSwapNode srcNode dstNode migratedPids with
      | none => none
      | some (swapTid, swapTickets) =>
        let currentTickets := srcTickets + g.ticketsNode swapTid dstNode
        let estimatedTickets := dstTickets + swapTickets
        if currentTickets < estimatedTickets then
          some ⟨[mc, g.simpleCell true swapTid srcNode dstNode], estimatedTickets⟩
        else none

/-- `get_migration`. -/
def getMigration : Candidates R := fun migratedPids tid =>
  (g.topology.nodesByDistance (g.system.proc tid).pinnedNumaNode).filterMap
    (candidate g migratedPids tid)

/-- The threads over which `get_migration_list` walks. -/
def worstTids : List Pid :=
  (g.worstTidPerf g.system.isMigratable).map Prod.snd

/-- `perform_migration_algorithm`. -/
def performMigrationAlgorithm : List (MigrationCell R) :=
  getMigrationList (getMigration g) (worstTids g)

/-! ### Candidates -/

/-- The candidates of a thread: moves to a free core, and interchanges with a thread placed on
the other node, that gain tickets. -/
inductive Candidate (tid : Pid) (migratedPids : OrderedSet Pid) : MigrationCell R → Prop
  | move {dst : Node} (hne : dst ≠ (g.system.proc tid).pinnedNumaNode)
      (hfree : g.system.isCpuFreeInNode g.topology dst = true)
      (hgain : g.ticketsNode tid (g.system.proc tid).pinnedNumaNode < g.ticketsNode tid dst) :
      Candidate tid migratedPids
        ⟨[g.simpleCell true tid dst (g.system.proc tid).pinnedNumaNode], g.ticketsNode tid dst⟩
  | interchange {dst : Node} {swapTid : Pid} (hne : dst ≠ (g.system.proc tid).pinnedNumaNode)
      (hswap : swapTid ∈ g.system.nonIdleTidsFromNode dst)
      (hmig : g.system.isMigratable swapTid = true) (hfresh : swapTid ∉ migratedPids)
      (hgain : g.ticketsNode tid (g.system.proc tid).pinnedNumaNode + g.ticketsNode swapTid dst <
        g.ticketsNode tid dst +
          g.ticketsNodeFrom swapTid dst (g.system.proc tid).pinnedNumaNode) :
      Candidate tid migratedPids
        ⟨[g.simpleCell true tid dst (g.system.proc tid).pinnedNumaNode,
            g.simpleCell true swapTid (g.system.proc tid).pinnedNumaNode dst],
          g.ticketsNode tid dst +
            g.ticketsNodeFrom swapTid dst (g.system.proc tid).pinnedNumaNode⟩

variable {g} {migratedPids : OrderedSet Pid} {tid : Pid} {cell : MigrationCell R}

/-- **Candidates.** -/
theorem mem_getMigration (h : cell ∈ getMigration g migratedPids tid) :
    Candidate g tid migratedPids cell := by
  obtain ⟨dst, -, hcand⟩ := List.mem_filterMap.mp h
  simp only [candidate] at hcand
  split_ifs at hcand with hsame hmove
  · obtain rfl := Option.some.inj hcand
    exact .move (Ne.symm hsame) hmove.1 hmove.2
  -- no free core, or no gain from it: an interchange if it has a partner and a gain
  · cases hbest : g.bestPidForSwapNode (g.system.proc tid).pinnedNumaNode dst migratedPids with
    | none => simp [hbest] at hcand
    | some best =>
      obtain ⟨hswap, hmig, hfresh, hscore⟩ := Globals.bestPidForSwap_some hbest
      simp only [hbest, hscore, Option.ite_none_right_eq_some] at hcand
      obtain ⟨hgain, hcell⟩ := hcand
      obtain rfl := Option.some.inj hcell
      exact .interchange (Ne.symm hsame) hswap hmig hfresh hgain

/-! ### The plan -/

/-- `node_tid_map` lists each thread at its pinned node only. -/
def ListedAtPinnedNode (s : System R) : Prop :=
  ∀ t n, t ∈ s.nodeTidMap n → (s.proc t).pinnedNumaNode = n

/-- A planned cell: a thread leaves its node for a free core of another one where it has more
tickets, or changes places with a thread pinned to another node, and the two have more tickets
together. -/
inductive Gains (g : Globals R) : MigrationCell R → Prop
  | move {tid : Pid} {src dst : Node} (hsrc : (g.system.proc tid).pinnedNumaNode = src)
      (hne : dst ≠ src) (hfree : g.system.isCpuFreeInNode g.topology dst = true)
      (hgain : g.ticketsNode tid src < g.ticketsNode tid dst) :
      Gains g ⟨[g.simpleCell true tid dst src], g.ticketsNode tid dst⟩
  | interchange {tid swapTid : Pid} {src dst : Node}
      (hsrc : (g.system.proc tid).pinnedNumaNode = src)
      (hdst : (g.system.proc swapTid).pinnedNumaNode = dst) (hne : dst ≠ src)
      (hgain : g.ticketsNode tid src + g.ticketsNode swapTid dst <
        g.ticketsNode tid dst + g.ticketsNode swapTid src) :
      Gains g ⟨[g.simpleCell true tid dst src, g.simpleCell true swapTid src dst],
        g.ticketsNode tid dst + g.ticketsNode swapTid src⟩

theorem pinned_of_nonIdle {s : System R} (hs : ListedAtPinnedNode s) {t : Pid} {n : Node}
    (ht : t ∈ s.nonIdleTidsFromNode n) : (s.proc t).pinnedNumaNode = n :=
  hs t n (OrderedSet.mem_filter.mp ht).1

theorem Candidate.gains (hs : ListedAtPinnedNode g.system)
    (h : Candidate g tid migratedPids cell) : Gains g cell := by
  cases h with
  | move hne hfree hgain => exact .move rfl hne hfree hgain
  | @interchange dst swapTid hne hswap hmig hfresh hgain =>
    have hdst := pinned_of_nonIdle hs hswap
    -- the search scores the partner as coming from `dst`, which is its pinned node
    have hback : g.ticketsNodeFrom swapTid dst (g.system.proc tid).pinnedNumaNode =
        g.ticketsNode swapTid (g.system.proc tid).pinnedNumaNode := by
      rw [Globals.ticketsNode, hdst]
    rw [hback] at hgain ⊢
    exact .interchange rfl hdst hne hgain

/-- A candidate names its own thread and others that are not involved yet, each of them once. -/
theorem Candidate.tids (hs : ListedAtPinnedNode g.system)
    (h : Candidate g tid migratedPids cell) :
    cell.tids.Nodup ∧ ∀ t ∈ cell.tids, t = tid ∨ t ∉ migratedPids := by
  cases h with
  | move hne hfree hgain => simp [MigrationCell.tids, Globals.simpleCell]
  | @interchange dst swapTid hne hswap hmig hfresh hgain =>
    have hother : tid ≠ swapTid := by
      rintro rfl
      exact hne (pinned_of_nonIdle hs hswap).symm
    simp [MigrationCell.tids, Globals.simpleCell, hother, hfresh]

theorem Candidate.migratable (hmig : g.system.isMigratable tid = true)
    (h : Candidate g tid migratedPids cell) :
    ∀ t ∈ cell.tids, g.system.isMigratable t = true := by
  cases h with
  | move hne hfree hgain => simpa [MigrationCell.tids, Globals.simpleCell] using hmig
  | interchange hne hswap hmig' hfresh hgain =>
    simpa [MigrationCell.tids, Globals.simpleCell] using ⟨hmig, hmig'⟩

theorem migratable_of_mem_worstTids (h : tid ∈ worstTids g) :
    g.system.isMigratable tid = true := by
  obtain ⟨entry, hentry, rfl⟩ := List.mem_map.mp h
  exact Globals.eligible_of_mem_worstTidPerf hentry

theorem nodup_planTids (hs : ListedAtPinnedNode g.system) :
    (planTids (performMigrationAlgorithm g)).Nodup :=
  nodup_getMigrationList fun _ _ _ _ hcell => (mem_getMigration hcell).tids hs

theorem migratable_of_plan :
    ∀ t ∈ planTids (performMigrationAlgorithm g), g.system.isMigratable t = true :=
  forall_planTids fun _ htid _ _ hcell =>
    (mem_getMigration hcell).migratable (migratable_of_mem_worstTids htid)

/-- **Plan.** If `node_tid_map` lists each thread at its pinned node only, a plan has at most
`max_thread_migrations` cells, names no thread twice and migratable threads only, and each of
its cells brings a gain. -/
theorem performMigrationAlgorithm_correct (g : Globals R) (hs : ListedAtPinnedNode g.system) :
    (performMigrationAlgorithm g).length ≤ g.settings.maxThreadMigrations ∧
      (planTids (performMigrationAlgorithm g)).Nodup ∧
      (∀ t ∈ planTids (performMigrationAlgorithm g), g.system.isMigratable t = true) ∧
      ∀ cell ∈ performMigrationAlgorithm g, Gains g cell := by
  refine ⟨?_, nodup_planTids hs, migratable_of_plan, ?_⟩
  · calc (performMigrationAlgorithm g).length ≤ (worstTids g).length := length_getMigrationList_le
      _ = (g.worstTidPerf g.system.isMigratable).length := List.length_map _
      _ ≤ g.settings.maxThreadMigrations := Globals.length_worstTidPerf_le
  · exact forall_getMigrationList fun _ _ _ _ hcell => (mem_getMigration hcell).gains hs

/-- Two nodes with two CPUs each; threads 1 and 2 are pinned to node 0 and thread 3 to node 1. -/
def twoAndOne : System ℚ :=
  run (System.perform (Topology.regular 2 2 Nat.two_pos Nat.two_pos) .node)
    (System.boot (Topology.regular 2 2 Nat.two_pos Nat.two_pos) 1
      (fun pid => ⟨none, true, false, ⟨'R', 0, if pid = 3 then 2 else 0, 1⟩⟩)
      ⟨fun _ => true, 0, fun _ => {0, 1, 2, 3}, {0, 1, 2, 3}⟩)
    [.pinProcess 1, .pinProcess 2, .pinProcess 3]

/-- The row of a running thread that has accessed the memory of node 1 only. -/
def prefersNodeOne : PerfRow ℚ where
  performance := { Rm3d.new (Settings.default 1 64) with
    nodeReqs := fun node => if node = 1 then 1 else 0 }
  running := true

/-- Threads 1 and 2 use half as much CPU time as their process does on average. -/
def bothPreferNodeOne : Globals ℚ where
  topology := Topology.regular 2 2 Nat.two_pos Nat.two_pos
  settings := Settings.default 1 64
  perfTable := ⟨[(1, prefersNodeOne), (2, prefersNodeOne)], fun _ => 1, fun _ => 2, fun _ _ => 1⟩
  system := twoAndOne

theorem twoAndOne_listed : ListedAtPinnedNode twoAndOne :=
  fun t n ht => ((System.nodeCoherent_run _ t).listed n ht).2

/-- Both threads are planned to move. -/
theorem performMigrationAlgorithm_correct_twoAndOne :
    planTids (performMigrationAlgorithm bothPreferNodeOne) = [1, 2] ∧
      ∀ cell ∈ performMigrationAlgorithm bothPreferNodeOne, Gains bothPreferNodeOne cell := by
  obtain ⟨-, -, -, hgains⟩ := performMigrationAlgorithm_correct bothPreferNodeOne twoAndOne_listed
  exact ⟨by decide +kernel, hgains⟩

end Thanos.Nimar
