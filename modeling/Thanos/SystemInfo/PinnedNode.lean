import Thanos.Library.Run
import Thanos.SystemInfo.Process

/-!
# The pinned node of a process

A process records the CPU and the node it last ran on, and the CPU and the node it is pinned
to. The last-run pair follows the stat file, behind the affinity calls: `process::pin` records
the node of the CPU last executed on as that of the CPU requested, and takes a request for the
CPU last executed on as met.

* **Pins** (`pinned_along_run_iff`): along a run the pinned node is that of the pinned CPU, and
  pins that succeed have pinned to the CPU requested, exactly when at every pin the process has
  arrived where it was pinned to, or the lag does not matter.
-/

namespace Thanos

namespace Pinning

/-- The operations on a process. -/
inductive Op (R : Type)
  /-- `process::pin(cpu)`. -/
  | pin (cpu : Cpu)
  /-- `process::pin()`. -/
  | pinSelf
  /-- `process::pin_node(node)`. -/
  | pinNode (node : Node)
  /-- `process::pin_node()`. -/
  | pinNodeSelf
  /-- `process::unpin`. -/
  | unpin
  /-- `process::update`, with what the stat file reports. -/
  | refresh (st : Stat R)

/-- A process and the kernel. -/
structure State (R : Type) where
  process : Process R
  kernel : Kernel

variable {R : Type} (T : Topology) (pid : Pid)

/-- An operation with its outcome. -/
def perform (s : State R) : Op R → Bool × State R
  | .pin cpu =>
    let (ok, p, k) := s.process.pin T pid cpu s.kernel
    (ok, ⟨p, k⟩)
  | .pinSelf =>
    let (ok, p, k) := s.process.pinSelf T pid s.kernel
    (ok, ⟨p, k⟩)
  | .pinNode node =>
    let (ok, p, k) := s.process.pinNode T pid node s.kernel
    (ok, ⟨p, k⟩)
  | .pinNodeSelf =>
    let (ok, p, k) := s.process.pinNodeSelf T pid s.kernel
    (ok, ⟨p, k⟩)
  | .unpin =>
    let (ok, k) := s.process.unpin pid s.kernel
    (ok, { s with kernel := k })
  | .refresh st => (true, { s with process := s.process.readStatFile T st })

/-- The state after an operation. -/
def step (s : State R) (op : Op R) : State R :=
  (perform T pid s op).2

/-- The state in which the constructor leaves a process. -/
def start (info : ProcInfo R) (kernel : Kernel) : State R :=
  ⟨.new T info, kernel⟩

/-- The pinned node is the node of the pinned CPU. -/
def NodeOfCpu (s : State R) : Prop :=
  s.process.pinnedNumaNode = T.numaNodeOfCpu s.process.pinnedProcessor

/-- A pin to a CPU that returns true has pinned the process to it. -/
def PinsToCpu (s : State R) (op : Op R) : Prop :=
  ∀ cpu, op = .pin cpu → (perform T pid s op).1 = true →
    (step T pid s op).process.pinnedProcessor = cpu

/-- At a pin to a CPU the process last ran on its pinned CPU, if it is taken to be there, and on
a CPU of the same node as the requested one, if the call is granted. -/
def LagHarmless (p : Process R) (k : Kernel) (cpu : Cpu) : Prop :=
  if cpu = p.processor ∧ p.pinned = true then p.pinnedProcessor = cpu
  else k.outcome k.calls = true → T.numaNodeOfCpu p.processor = T.numaNodeOfCpu cpu

/-- The lag is harmless if the operation is a pin to a CPU. -/
def PinsHarmlessly (s : State R) : Op R → Prop
  | .pin cpu => LagHarmless T s.process s.kernel cpu
  | .pinSelf => LagHarmless T s.process s.kernel s.process.pinnedProcessor
  | _ => True

variable {T pid} {s : State R} {op : Op R}

theorem nodeOfCpu_start {info : ProcInfo R} {kernel : Kernel} :
    NodeOfCpu T (start T info kernel) :=
  rfl

/-- **A pin to a CPU.** -/
theorem pin_iff (pid : Pid) {cpu : Cpu} (hs : NodeOfCpu T s) :
    (NodeOfCpu T (step T pid s (.pin cpu)) ∧ ((perform T pid s (.pin cpu)).1 = true →
        (step T pid s (.pin cpu)).process.pinnedProcessor = cpu)) ↔
      LagHarmless T s.process s.kernel cpu := by
  obtain ⟨hcpu, hpin, heq⟩ | ⟨hshort, hout, heq⟩ | ⟨hshort, hout, heq⟩ :=
    Process.pin_cases T pid s.process cpu s.kernel
  · -- the process is taken to be on the CPU already
    simp only [step, perform, heq, LagHarmless, if_pos (And.intro hcpu hpin)]
    constructor
    · exact fun h => h.2 trivial
    · exact fun h => ⟨hs, fun _ => h⟩
  · simp only [step, perform, heq, LagHarmless, if_neg hshort]
    constructor
    · exact fun h _ => h.1
    · exact fun h => ⟨h hout, fun _ => rfl⟩
  · simp only [step, perform, heq, LagHarmless, if_neg hshort, hout]
    exact iff_of_true ⟨hs, fun h => absurd h (by simp)⟩ fun h => absurd h (by simp)

/-- A pin to a node records its first CPU. -/
theorem nodeOfCpu_pinNode {node : Node} (hs : NodeOfCpu T s) :
    NodeOfCpu T ⟨(s.process.pinNode T pid node s.kernel).2.1,
      (s.process.pinNode T pid node s.kernel).2.2⟩ := by
  obtain ⟨mask, hmask, hgrant, heq⟩ | ⟨-, heq⟩ | ⟨mask, -, -, heq⟩ :=
    Process.pinNode_cases T pid s.process node s.kernel
  · obtain ⟨cpu, hcpu⟩ := OrderedSet.exists_begin? (Kernel.size_pos_of_grants hgrant)
    rw [heq]
    simp only [NodeOfCpu, Process.onNode, hcpu, Option.getD_some]
    exact (T.numaNodeOfCpu_of_mem node mask hmask cpu (OrderedSet.mem_of_begin? hcpu)).symm
  · rw [heq]
    exact hs
  · rw [heq]
    exact hs

/-- A refresh takes both last-run and pinned pair from the stat file, or the first one only. -/
theorem nodeOfCpu_refresh {st : Stat R} (hs : NodeOfCpu T s) :
    NodeOfCpu T (step T pid s (.refresh st)) := by
  simp only [step, perform, NodeOfCpu, Process.readStatFile]
  split_ifs
  · exact hs
  · rfl

/-- **Pins**, one operation. -/
theorem step_iff (hs : NodeOfCpu T s) :
    NodeOfCpu T (step T pid s op) ∧ PinsToCpu T pid s op ↔ PinsHarmlessly T s op := by
  have hother : (∀ cpu, op ≠ .pin cpu) → PinsToCpu T pid s op :=
    fun hne cpu heq => absurd heq (hne cpu)
  rcases op with cpu | _ | node | _ | _ | st
  · rw [PinsHarmlessly, ← pin_iff pid hs]
    refine and_congr_right fun _ => ⟨fun h => h cpu rfl, fun h cpu' heq => ?_⟩
    obtain rfl := Op.pin.inj heq
    exact h
  · rw [PinsHarmlessly, ← pin_iff pid hs]
    refine and_congr_right fun _ => iff_of_true (hother fun cpu => by simp) fun hok => ?_
    obtain ⟨-, -, heq⟩ | ⟨-, -, heq⟩ | ⟨-, -, heq⟩ :=
      Process.pin_cases T pid s.process s.process.pinnedProcessor s.kernel
    · simp only [step, perform, heq]
    · simp only [step, perform, heq, Process.onCpu_pinnedProcessor]
    · simp [perform, heq] at hok
  · exact iff_of_true ⟨nodeOfCpu_pinNode hs, hother fun cpu => by simp⟩ trivial
  · exact iff_of_true ⟨nodeOfCpu_pinNode hs, hother fun cpu => by simp⟩ trivial
  · exact iff_of_true ⟨hs, hother fun cpu => by simp⟩ trivial
  · exact iff_of_true ⟨nodeOfCpu_refresh hs, hother fun cpu => by simp⟩ trivial

/-- **Pins.** -/
theorem pinned_along_run_iff (T : Topology) (pid : Pid) (info : ProcInfo R) (kernel : Kernel)
    (ops : List (Op R)) :
    AlongRun (step T pid) (NodeOfCpu T) (start T info kernel) ops ∧
        StepsOfRun (step T pid) (PinsToCpu T pid) (start T info kernel) ops ↔
      StepsOfRun (step T pid) (PinsHarmlessly T) (start T info kernel) ops :=
  alongRun_and_stepsOfRun_iff (I := fun _ => True) trivial (fun _ _ _ => trivial)
    nodeOfCpu_start fun _ _ _ hs => step_iff hs

/-- A process that last ran on CPU 0 is pinned to CPU 1, of the other node, and then to CPU 0. -/
theorem not_pinned_along_run :
    ¬ ∀ (T : Topology) (pid : Pid) (info : ProcInfo ℚ) (kernel : Kernel) (ops : List (Op ℚ)),
      AlongRun (step T pid) (NodeOfCpu T) (start T info kernel) ops ∧
        StepsOfRun (step T pid) (PinsToCpu T pid) (start T info kernel) ops := by
  intro h
  obtain ⟨-, hsteps⟩ := h (.regular 2 1 Nat.two_pos Nat.one_pos) 1
    ⟨none, true, false, ⟨'R', 0, 0, 1⟩⟩ ⟨fun _ => true, 0, fun _ => {0, 1}, {0, 1}⟩ [.pin 1, .pin 0]
  exact absurd (hsteps [.pin 1] (.pin 0) (List.prefix_refl _) 0 rfl (by decide)) (by decide)

end Pinning

end Thanos
