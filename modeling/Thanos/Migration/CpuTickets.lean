import Mathlib.Algebra.Field.Rat
import Thanos.Migration.Scoring
import Thanos.SystemInfo.PlacementRuns

/-!
# The score of a move between CPUs

`tickets_cpu` of a thread and a destination takes the CPU of the thread as the source and hands
both CPUs on to `tickets_node`, where nodes are expected; `tickets_cpu` of a source and a
destination looks up their nodes. The first form reads the performance, the distances and the
threads of the nodes that are numbered as the CPUs.

* **Reasons** (`reasons_inj`): the mask of a score tells how the look-ups have ended.
* **Scores** (`scoredAlike_iff`): in exact arithmetic the two scores agree exactly when the
  nodes that are numbered as the CPUs look like the nodes of the CPUs.
-/

namespace Thanos

variable {R : Type} [RealT R]

/-- Every ticket has the mask of its reason, as in `tickets.cpp`; options change values only. -/
structure Settings.Masked (settings : Settings R) : Prop where
  memCellWorse : settings.ticketsMemCellWorse.mask = TicketsMask.memCellWorse.bit
  memCellNoData : settings.ticketsMemCellNoData.mask = TicketsMask.memCellNoData.bit
  memCellBetter : settings.ticketsMemCellBetter.mask = TicketsMask.memCellBetter.bit
  freeCore : settings.ticketsFreeCore.mask = TicketsMask.freeCore.bit
  prefNode : settings.ticketsPrefNode.mask = TicketsMask.prefNode.bit
  underPerf : settings.ticketsUnderPerf.mask = TicketsMask.threadUnderPerf.bit

/-- The mask of a score by the outcomes of the look-ups. -/
def reasons (noData worse prefNode freeCore underPerf : Bool) : UInt8 :=
  (bif noData then TicketsMask.memCellNoData.bit
    else bif worse then TicketsMask.memCellWorse.bit else TicketsMask.memCellBetter.bit) |||
    (bif prefNode then TicketsMask.prefNode.bit else 0) |||
    (bif freeCore then TicketsMask.freeCore.bit else 0) |||
    (bif underPerf then TicketsMask.threadUnderPerf.bit else 0)

/-- **Reasons.** -/
theorem reasons_inj : ∀ {noData worse prefNode freeCore noData' worse' prefNode' freeCore'
      underPerf : Bool},
    reasons noData worse prefNode freeCore underPerf =
        reasons noData' worse' prefNode' freeCore' underPerf →
      noData = noData' ∧ (noData = false → worse = worse') ∧ prefNode = prefNode' ∧
        freeCore = freeCore' := by
  decide +kernel

omit [RealT R] in
theorem tickets_ext {a b : Tickets R} (hvalue : a.value = b.value) (hmask : a.mask = b.mask) :
    a = b := by
  rcases a with ⟨value, mask⟩
  rcases b with ⟨value', mask'⟩
  rw [Tickets.mk.injEq]
  exact ⟨hvalue, hmask⟩

namespace Globals

variable (g : Globals R) (tid : Pid)

/-- The performance at the node is not valid. -/
def noData (dstNode : Node) : Bool :=
  (g.perfTable.getRm3d g.settings tid).perfNode dstNode == performanceInvalidValue

/-- The performance is worse at the destination. -/
def isWorse (srcNode dstNode : Node) : Bool :=
  decide ((g.perfTable.getRm3d g.settings tid).perfNode dstNode <
    (g.perfTable.getRm3d g.settings tid).perfNode srcNode)

/-- The score `tickets_cpu(tid, dst_cpu)` is computed within the vectors of the nodes, and is
`tickets_cpu(tid, pinned_cpu(tid), dst_cpu)`. The source is not looked up if there are no data
for the destination. -/
structure ScoredAlike (dstCpu : Cpu) : Prop where
  dstCpu_le : dstCpu ≤ g.topology.maxNode
  srcCpu_le : g.noData tid dstCpu = false →
    (g.system.proc tid).pinnedProcessor ≤ g.topology.maxNode
  score : g.ticketsCpu tid dstCpu =
    g.ticketsCpuFrom tid (g.system.proc tid).pinnedProcessor dstCpu

/-- The nodes numbered as the two CPUs look like the nodes of the CPUs. -/
structure LooksAlike (srcCpu dstCpu : Cpu) : Prop where
  dstCpu_le : dstCpu ≤ g.topology.maxNode
  srcCpu_le : g.noData tid dstCpu = false → srcCpu ≤ g.topology.maxNode
  noData : g.noData tid dstCpu = g.noData tid (g.topology.cpuNodeMap dstCpu)
  isWorse : g.noData tid dstCpu = false → g.isWorse tid srcCpu dstCpu =
    g.isWorse tid (g.topology.cpuNodeMap srcCpu) (g.topology.cpuNodeMap dstCpu)
  prefNode : dstCpu = g.preferredNode tid ↔
    g.topology.cpuNodeMap dstCpu = g.preferredNode tid
  /-- The distances count unless the tickets for the preferred node are worth nothing. -/
  numaDistance : g.settings.ticketsPrefNode.value * real g.topology.localDistance =
      RealT.ofRat 0 ∨ g.topology.numaDistance dstCpu (g.preferredNode tid) =
    g.topology.numaDistance (g.topology.cpuNodeMap dstCpu) (g.preferredNode tid)
  isCpuFree : g.system.isCpuFreeInNode g.topology dstCpu = g.system.isCpuFree dstCpu

variable {g tid} {srcNode dstNode : Node} {srcCpu dstCpu : Cpu}

/-- The tickets of `tickets_rm3d` are chosen by two comparisons. -/
theorem ticketsRm3d_eq : g.ticketsRm3d tid srcNode dstNode =
    bif g.noData tid dstNode then g.settings.ticketsMemCellNoData
    else bif g.isWorse tid srcNode dstNode then g.settings.ticketsMemCellWorse
    else g.settings.ticketsMemCellBetter := by
  simp only [ticketsRm3d, noData, isWorse, Bool.cond_eq_ite, decide_eq_true_eq]

/-- The mask of a score for a node or a CPU. -/
theorem mask_add (hmasks : g.settings.Masked) {free : Tickets R} {isFree : Bool}
    (hfree : free = if isFree then g.settings.ticketsFreeCore else Tickets.zero) :
    (g.ticketsRm3d tid srcNode dstNode + g.ticketsPrefNode tid dstNode + free +
        g.ticketsUnderPerformance tid).mask =
      reasons (g.noData tid dstNode) (g.isWorse tid srcNode dstNode)
        (decide (dstNode = g.preferredNode tid)) isFree (g.isUnderPerformance tid) := by
  have hadd : ∀ a b : Tickets R, (a + b).mask = a.mask ||| b.mask := fun _ _ => rfl
  have hpref : (g.ticketsPrefNode tid dstNode).mask =
      bif decide (dstNode = g.preferredNode tid) then g.settings.ticketsPrefNode.mask else 0 := by
    simp only [ticketsPrefNode, Bool.cond_decide]
  have hzero : (Tickets.zero : Tickets R).mask = 0 := rfl
  rw [hadd, hadd, hadd, hpref, hfree, ticketsRm3d_eq, ticketsUnderPerformance, reasons,
    hmasks.prefNode]
  simp only [apply_ite Tickets.mask, hmasks.memCellNoData,
    hmasks.memCellWorse, hmasks.memCellBetter, hmasks.freeCore, hmasks.underPerf, hzero,
    Bool.cond_eq_ite]

theorem ticketsNodeFrom_mask (hmasks : g.settings.Masked) :
    (g.ticketsNodeFrom tid srcNode dstNode).mask =
      reasons (g.noData tid dstNode) (g.isWorse tid srcNode dstNode)
        (decide (dstNode = g.preferredNode tid)) (g.system.isCpuFreeInNode g.topology dstNode)
        (g.isUnderPerformance tid) :=
  mask_add hmasks rfl

theorem ticketsCpuFrom_mask (hmasks : g.settings.Masked) :
    (g.ticketsCpuFrom tid srcCpu dstCpu).mask =
      reasons (g.noData tid (g.topology.cpuNodeMap dstCpu))
        (g.isWorse tid (g.topology.cpuNodeMap srcCpu) (g.topology.cpuNodeMap dstCpu))
        (decide (g.topology.cpuNodeMap dstCpu = g.preferredNode tid))
        (g.system.isCpuFree dstCpu) (g.isUnderPerformance tid) :=
  mask_add hmasks rfl

/-- The comparisons decide the tickets of `tickets_rm3d`. -/
theorem ticketsRm3d_congr {srcNode' dstNode' : Node}
    (hnoData : g.noData tid dstNode = g.noData tid dstNode')
    (hworse : g.noData tid dstNode = false →
      g.isWorse tid srcNode dstNode = g.isWorse tid srcNode' dstNode') :
    g.ticketsRm3d tid srcNode dstNode = g.ticketsRm3d tid srcNode' dstNode' := by
  rw [ticketsRm3d_eq, ticketsRm3d_eq, ← hnoData]
  cases h : g.noData tid dstNode with
  | true => rfl
  | false => rw [hworse h]

theorem ticketsFreeCore_congr (h : g.system.isCpuFreeInNode g.topology dstNode =
    g.system.isCpuFree dstCpu) : g.ticketsFreeCoreInNode dstNode = g.ticketsFreeCore dstCpu := by
  rw [ticketsFreeCoreInNode, ticketsFreeCore, h]

section Exact

variable {g : Globals ℚ}

/-- In exact arithmetic the quotients by two distances are equal if the distances are, or if
nothing is divided. -/
theorem ticketsPrefNode_value_eq_iff {dstNode' : Node} :
    (g.ticketsPrefNode tid dstNode).value = (g.ticketsPrefNode tid dstNode').value ↔
      g.settings.ticketsPrefNode.value * real g.topology.localDistance = RealT.ofRat 0 ∨
        g.topology.numaDistance dstNode (g.preferredNode tid) =
          g.topology.numaDistance dstNode' (g.preferredNode tid) := by
  have hcast : ∀ n n' : ℕ, (real (n : ℤ) : ℚ) = real (n' : ℤ) ↔ n = n' := fun n n' =>
    Int.cast_inj.trans Int.ofNat_inj
  have hdiv : ∀ x a b : ℚ, x / a = x / b ↔ x = 0 ∨ a = b := by
    intro x a b
    rw [div_eq_mul_inv, div_eq_mul_inv, mul_eq_mul_left_iff, inv_inj, or_comm]
  rw [← hcast]
  exact hdiv _ _ _

/-- **Scores.** -/
theorem scoredAlike_iff (hmasks : g.settings.Masked) :
    g.ScoredAlike tid dstCpu ↔
      g.LooksAlike tid (g.system.proc tid).pinnedProcessor dstCpu := by
  have hvalue : ∀ a b : Tickets ℚ, (a + b).value = a.value + b.value := fun _ _ => rfl
  constructor
  · rintro ⟨hdst, hsrc, hscore⟩
    have hmask := congrArg Tickets.mask hscore
    rw [ticketsCpu, ticketsNodeFrom_mask hmasks, ticketsCpuFrom_mask hmasks] at hmask
    obtain ⟨hnoData, hworse, hpref, hfree⟩ := reasons_inj hmask
    have hsum := congrArg Tickets.value hscore
    simp only [ticketsCpu, ticketsNodeFrom, ticketsCpuFrom, hvalue,
      ticketsRm3d_congr hnoData hworse, ticketsFreeCore_congr hfree] at hsum
    exact ⟨hdst, hsrc, hnoData, hworse, decide_eq_decide.mp hpref,
      ticketsPrefNode_value_eq_iff.mp (by linarith), hfree⟩
  · intro h
    refine ⟨h.dstCpu_le, h.srcCpu_le, ?_⟩
    have hpref : g.ticketsPrefNode tid dstCpu =
        g.ticketsPrefNode tid (g.topology.cpuNodeMap dstCpu) := by
      refine tickets_ext (ticketsPrefNode_value_eq_iff.mpr h.numaDistance) ?_
      simp only [ticketsPrefNode, h.prefNode]
    rw [ticketsCpu, ticketsNodeFrom, ticketsCpuFrom, ticketsRm3d_congr h.noData h.isWorse,
      ticketsFreeCore_congr h.isCpuFree, hpref]

/-- The tables of a machine on which thread 1 runs on CPU 0, with its performance by node. -/
def performing (T : Topology) (perfs : Node → ℚ) : Globals ℚ where
  topology := T
  settings := .default 1 64
  perfTable :=
    ⟨[(1, ⟨{ Rm3d.new (.default 1 64) with perfs := perfs }, true⟩)], fun _ => 1, fun _ => 1,
      fun _ _ => 1⟩
  system := .boot T 1 (fun _ => ⟨none, true, false, ⟨'R', 0, 0, 1⟩⟩)
    ⟨fun _ => true, 0, fun _ => {0, 1}, {0, 1}⟩

theorem performing_masked {T : Topology} {perfs : Node → ℚ} :
    (performing T perfs).settings.Masked :=
  ⟨rfl, rfl, rfl, rfl, rfl, rfl⟩

/-- With one CPU in each node CPUs and nodes have the same numbers. -/
theorem scoredAlike_iff_performing :
    (performing (.regular 2 1 Nat.two_pos Nat.one_pos) fun _ => 10).ScoredAlike 1 1 := by
  refine (scoredAlike_iff performing_masked).mpr ?_
  exact ⟨by decide, by decide +kernel, by decide +kernel, by decide +kernel, by decide +kernel,
    .inr (by decide +kernel), by decide +kernel⟩

/-- CPU 2 is in node 1, where the performance is best, and is scored as node 2, where it is
worst. -/
theorem not_scoredAlike :
    ¬ ∀ (g : Globals ℚ) (tid : Pid) (dstCpu : Cpu), g.settings.Masked →
      dstCpu ∈ g.topology.cpus → g.ScoredAlike tid dstCpu := by
  intro h
  have hscored := h (performing (.regular 4 2 (Nat.succ_pos 3) Nat.two_pos)
    fun node => if node = 1 then 20 else if node = 2 then 5 else 10) 1 2 performing_masked
    (by decide)
  exact absurd (congrArg Tickets.mask hscored.score) (by decide +kernel)

end Exact

end Globals

end Thanos
