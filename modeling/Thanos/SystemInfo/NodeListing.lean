import Thanos.SystemInfo.PlacementRuns

/-!
# The threads listed at their node

Under node granularity the free-core tests and the balancer read `node_tid_map`, so a thread
that a bulk pin has listed there should stay listed at its pinned node. `pin_thread_to_node`
erases a thread that changes node from the set of the new node instead of inserting it.

`Audit` adds to the state the threads that have been bulk-pinned and not unpinned or removed
since.

* **Completeness** (`complete_along_run_iff`): along a run every bulk-pinned thread is listed
  at its pinned node exactly when its granted migrations stay on that node; and every
  successful migration leaves its thread listed at the new node exactly when, moreover, only
  bulk-pinned threads have their migrations granted.
-/

namespace Thanos

namespace System

/-- A system together with the threads that have been pinned by a bulk pin and have not been
unpinned or removed since. -/
structure Audit (R : Type) where
  system : System R
  bulkPinned : Pid → Bool

variable {R : Type} (T : Topology)

/-- The affinity call of a migration to a node is issued and granted. -/
def GrantsNode (s : System R) (tid : Pid) (node : Node) : Prop :=
  tid ≠ 0 ∧ ∃ mask, T.numaNodeToCpus node = some mask ∧ s.kernel.grants mask = true

variable {T} {s : System R} {t tid : Pid} {node n : Node}

theorem pinThreadToNode_fst_iff :
    (pinThreadToNode T tid node s).1 = true ↔ GrantsNode T s tid node := by
  obtain ⟨htid, mask, hmask, hgrant, heq⟩ | ⟨hno, heq⟩ | ⟨-, mask, hmask, hgrant, heq⟩ :=
    pinThreadToNode_cases T tid node s
  · exact iff_of_true (by rw [heq]) ⟨htid, mask, hmask, hgrant⟩
  · refine iff_of_false (by simp [heq]) ?_
    rintro ⟨htid, mask, hmask, -⟩
    obtain h | h := hno
    · exact htid h
    · simp [h] at hmask
  · refine iff_of_false (by simp [heq]) ?_
    rintro ⟨-, mask', hmask', hgrant'⟩
    obtain rfl : mask = mask' := Option.some.inj (hmask.symm.trans hmask')
    simp [hgrant] at hgrant'

/-- A migration lists no thread at a node. -/
theorem mem_of_mem_pinThreadToNode (h : t ∈ (pinThreadToNode T t node s).2.nodeTidMap n) :
    t ∈ s.nodeTidMap n := by
  obtain ⟨-, mask, -, -, heq⟩ | ⟨-, heq⟩ | ⟨-, mask, -, -, heq⟩ := pinThreadToNode_cases T t node s
  · rw [heq] at h
    simp only [movedToNode] at h
    split_ifs at h
    · exact h
    · simpa using h
    · -- both sets lose the thread
      simp only [mem_eraseNode, insertCpu_nodeTidMap, eraseCpu_nodeTidMap,
        store_nodeTidMap] at h
      exact h.1.1
  · rwa [heq] at h
  · rwa [heq] at h

/-- A listed thread whose migration is granted is listed afterwards only if it was on the new
node before. -/
theorem mem_pinThreadToNode_iff (hs : NodeCoherent T s t)
    (hlist : t ∈ s.nodeTidMap (s.proc t).pinnedNumaNode) (hgrant : GrantsNode T s t node) :
    ((pinThreadToNode T t node s).2.proc t).pinnedNumaNode = node ∧
      (t ∈ (pinThreadToNode T t node s).2.nodeTidMap n ↔
        n = node ∧ (s.proc t).pinnedNumaNode = node) := by
  obtain ⟨hpin, -⟩ := hs.listed _ hlist
  have hok := pinThreadToNode_fst_iff.mpr hgrant
  obtain ⟨-, mask, hmask, hmask', heq⟩ | ⟨-, heq⟩ | ⟨-, mask, -, -, heq⟩ :=
    pinThreadToNode_cases T t node s
  · have hnode := cpuNodeMap_onNode (p := s.proc t) hmask (Kernel.size_pos_of_grants hmask')
    rw [heq]
    refine ⟨by simp, ?_⟩
    by_cases hstay : (s.proc t).pinnedNumaNode = node
    · rw [mem_movedToNode_of_eq ((hs.node hpin).trans hstay)]
      constructor
      · intro hn
        exact ⟨(hs.listed n hn).2.symm.trans hstay, hstay⟩
      · rintro ⟨rfl, -⟩
        rwa [hstay] at hlist
    · -- erased from the sets of both nodes, and listed nowhere else before
      have hold : T.cpuNodeMap (s.proc t).pinnedProcessor ≠ node :=
        fun h => hstay ((hs.node hpin).symm.trans h)
      have hcpu : (s.proc t).pinnedProcessor ≠ ((s.proc t).onNode node mask).pinnedProcessor :=
        fun h => hold (h ▸ hnode)
      rw [mem_movedToNode_self hold hcpu]
      refine iff_of_false ?_ fun h => hstay h.2
      rintro ⟨hn, hne, -⟩
      exact hne ((hs.listed n hn).2.symm.trans (hs.node hpin).symm)
  · simp [heq] at hok
  · simp [heq] at hok

namespace Audit

variable (T)

/-- What an operation does to the set of bulk-pinned threads: a successful bulk pin adds its
thread, a successful unpin and a removal take theirs away. -/
def track (a : Audit R) : Op R → Pid → Bool
  | .pinProcess pid, t =>
    a.bulkPinned t || (decide (t = pid) && (pinProcessToNode T pid a.system).1)
  | .migrate _ _, t => a.bulkPinned t
  | .unpin pid, t => a.bulkPinned t && !(decide (t = pid) && (unpinThread pid a.system).1)
  | .refresh _ _, t => a.bulkPinned t
  | .remove dropped, t => a.bulkPinned t && !decide (t ∈ dropped.map Prod.fst)

/-- An operation under node granularity. -/
def perform (a : Audit R) (op : Op R) : Audit R where
  system := a.system.perform T .node op
  bulkPinned := a.track T op

/-- The profiler starts and no thread has been pinned. -/
def boot (root : Pid) (info : Pid → ProcInfo R) (kernel : Kernel) : Audit R where
  system := System.boot T root info kernel
  bulkPinned _ := false

/-- Every bulk-pinned thread is listed at its pinned node. -/
def Complete (a : Audit R) : Prop :=
  ∀ t, a.bulkPinned t = true → t ∈ a.system.nodeTidMap (a.system.proc t).pinnedNumaNode

/-- If the operation is a migration and succeeds, it leaves its thread listed at the new node
and at no other. -/
def MovesListing (a : Audit R) (op : Op R) : Prop :=
  ∀ tid node, op = .migrate tid node → (pinThreadToNode T tid node a.system).1 = true →
    ∀ n, tid ∈ (pinThreadToNode T tid node a.system).2.nodeTidMap n ↔ n = node

/-- A granted migration of a bulk-pinned thread is to the node it is pinned to. -/
def StaysOnNode (a : Audit R) (op : Op R) : Prop :=
  ∀ tid node, op = .migrate tid node → GrantsNode T a.system tid node →
    a.bulkPinned tid = true → (a.system.proc tid).pinnedNumaNode = node

/-- A granted migration is of a bulk-pinned thread. -/
def MovesBulkPinned (a : Audit R) (op : Op R) : Prop :=
  ∀ tid node, op = .migrate tid node → GrantsNode T a.system tid node →
    a.bulkPinned tid = true

/-- What holds of every thread in an audited run. -/
structure Sound (a : Audit R) (t : Pid) : Prop where
  coherent : NodeCoherent T a.system t
  /-- A bulk-pinned thread is flagged pinned. -/
  pinned : a.bulkPinned t = true → (a.system.proc t).pinned = true
  /-- Other threads are not listed. -/
  unlisted : a.bulkPinned t = false → ∀ n, t ∉ a.system.nodeTidMap n

variable {T} {a : Audit R} {op : Op R}

theorem track_of_not_names (h : ¬ op.Names t) : a.track T op t = a.bulkPinned t := by
  match op with
  | .pinProcess pid => simp [track, show t ≠ pid from h]
  | .migrate _ _ => rfl
  | .unpin pid => simp [track, show t ≠ pid from h]
  | .refresh _ _ => rfl
  | .remove dropped =>
    have hmem : t ∉ dropped.map Prod.fst := h
    simp only [track, hmem, decide_false, Bool.not_false, Bool.and_true]

/-! ### Soundness of every run -/

theorem Sound.pinProcess (hs : Sound T a t) : Sound T (a.perform T (.pinProcess t)) t := by
  have hcoherent := hs.coherent.perform (.pinProcess t)
  have htrack : (a.perform T (.pinProcess t)).bulkPinned t =
      (a.bulkPinned t || (pinProcessToNode T t a.system).1) := by
    simp [Audit.perform, track]
  obtain ⟨mask, p, -, -, rfl, heq⟩ | heq | heq := pinProcessToNode_cases T t a.system
  -- granted, not issued or refused: in the last two cases nothing is tracked
  all_goals
    rw [heq] at htrack
    simp only [Bool.or_true, Bool.or_false] at htrack
    refine ⟨hcoherent, fun hb => ?_, fun hb => ?_⟩
    all_goals
      rw [htrack] at hb
      simp only [Audit.perform, System.perform, System.pinProcess, heq]
  · simp
  · simp at hb
  · exact hs.pinned hb
  · exact hs.unlisted hb
  · exact hs.pinned hb
  · exact hs.unlisted hb

theorem Sound.migrate (hs : Sound T a t) : Sound T (a.perform T (.migrate t node)) t := by
  have hcoherent := hs.coherent.perform (.migrate t node)
  refine ⟨hcoherent, fun hb => ?_, fun hb n hn => ?_⟩
  · have hpin : (a.system.proc t).pinned = true := hs.pinned hb
    simp only [Audit.perform, System.perform, pinThread]
    obtain ⟨-, mask, -, -, heq⟩ | ⟨-, heq⟩ | ⟨-, mask, -, -, heq⟩ :=
      pinThreadToNode_cases T t node a.system
    · simp [heq]
    · rw [heq]
      exact hpin
    · rw [heq]
      exact hpin
  · exact hs.unlisted hb n (mem_of_mem_pinThreadToNode hn)

theorem Sound.unpin (hs : Sound T a t) : Sound T (a.perform T (.unpin t)) t := by
  have hcoherent := hs.coherent.perform (.unpin t)
  have htrack : (a.perform T (.unpin t)).bulkPinned t =
      (a.bulkPinned t && !(unpinThread t a.system).1) := by
    simp [Audit.perform, track]
  obtain ⟨k, -, heq⟩ | heq := unpinThread_cases t a.system
  · refine ⟨hcoherent, fun hb => ?_, fun _ n hn => ?_⟩
    · rw [htrack, heq] at hb
      simp at hb
    · simp only [Audit.perform, System.perform, heq] at hn
      obtain ⟨hn, hne⟩ := mem_eraseNode.mp hn
      exact hne ⟨rfl, (hs.coherent.listed n hn).2.symm⟩
  · rw [heq, Bool.not_false, Bool.and_true] at htrack
    refine ⟨hcoherent, fun hb => ?_, fun hb => ?_⟩
    · rw [htrack] at hb
      simp only [Audit.perform, System.perform, heq]
      exact hs.pinned hb
    · rw [htrack] at hb
      simp only [Audit.perform, System.perform, heq]
      exact hs.unlisted hb

theorem Sound.remove {dropped : List (Pid × ProcInfo R)} (hs : Sound T a t)
    (h : t ∈ dropped.map Prod.fst) : Sound T (a.perform T (.remove dropped)) t := by
  have hcoherent := hs.coherent.perform (.remove dropped)
  have htrack : (a.perform T (.remove dropped)).bulkPinned t = false := by
    simp only [Audit.perform, track, h, decide_true, Bool.not_true, Bool.and_false]
  exact ⟨hcoherent, fun hb => absurd hb (by simp [htrack]), fun _ => (remove_of_mem h).2.2⟩

theorem Sound.of_not_names (hs : Sound T a t) (h : ¬ op.Names t) :
    Sound T (a.perform T op) t := by
  have hsame : SameThread a.system (a.system.perform T .node op) t := perform_sameThread h
  have htrack : (a.perform T op).bulkPinned t = a.bulkPinned t := track_of_not_names h
  refine ⟨hs.coherent.perform op, fun hb => ?_, fun hb n hn => ?_⟩
  · rw [htrack] at hb
    exact (congrArg Process.pinned hsame.proc).trans (hs.pinned hb)
  · rw [htrack] at hb
    exact hs.unlisted hb n ((hsame.node n).mp hn)

theorem Sound.perform (hs : Sound T a t) (op : Op R) : Sound T (a.perform T op) t := by
  by_cases hop : op.Names t
  · match op with
    | .pinProcess pid => exact hop ▸ hs.pinProcess
    | .migrate tid dst => exact hop ▸ hs.migrate
    | .unpin pid => exact hop ▸ hs.unpin
    | .refresh pid st =>
      obtain rfl : t = pid := hop
      refine ⟨hs.coherent.perform (.refresh t st), fun hb => ?_, hs.unlisted⟩
      simpa [Audit.perform, System.perform, System.refresh] using hs.pinned hb
    | .remove dropped => exact hs.remove hop
  · exact hs.of_not_names hop

theorem sound_boot {root : Pid} {info : Pid → ProcInfo R} {kernel : Kernel} :
    Sound T (boot T root info kernel) t :=
  ⟨nodeCoherent_boot, fun h => absurd h (by simp [boot]), fun _ _ => OrderedSet.notMem_empty⟩

/-! ### Completeness -/

/-- A thread is listed at its pinned node if it is bulk-pinned. -/
def CompleteAt (a : Audit R) (t : Pid) : Prop :=
  a.bulkPinned t = true → t ∈ a.system.nodeTidMap (a.system.proc t).pinnedNumaNode

theorem CompleteAt.of_not_names (hc : CompleteAt a t) (h : ¬ op.Names t) :
    CompleteAt (a.perform T op) t := by
  have hsame : SameThread a.system (a.system.perform T .node op) t := perform_sameThread h
  intro hb
  rw [show (a.perform T op).bulkPinned t = a.bulkPinned t from track_of_not_names h] at hb
  have hlist := hc hb
  rw [← hsame.proc] at hlist
  exact (hsame.node _).mpr hlist

theorem CompleteAt.pinProcess (hc : CompleteAt a t) :
    CompleteAt (a.perform T (.pinProcess t)) t := by
  intro hb
  simp only [Audit.perform, track, System.perform, System.pinProcess, decide_true,
    Bool.true_and] at hb ⊢
  obtain ⟨mask, p, hmask, hsize, rfl, heq⟩ | heq | heq := pinProcessToNode_cases T t a.system
  · rw [heq]
    refine mem_insertNode.mpr (.inr ⟨rfl, ?_⟩)
    simpa using (cpuNodeMap_onNode hmask hsize).symm
  · rw [heq] at hb ⊢
    exact hc (by simpa using hb)
  · rw [heq] at hb ⊢
    exact hc (by simpa using hb)

theorem CompleteAt.unpin (hc : CompleteAt a t) : CompleteAt (a.perform T (.unpin t)) t := by
  intro hb
  simp only [Audit.perform, track, System.perform, decide_true, Bool.true_and] at hb ⊢
  obtain ⟨k, -, heq⟩ | heq := unpinThread_cases t a.system
  · rw [heq] at hb
    simp at hb
  · rw [heq] at hb ⊢
    exact hc (by simpa using hb)

theorem CompleteAt.refresh {st : Stat R} (hs : Sound T a t) (hc : CompleteAt a t) :
    CompleteAt (a.perform T (.refresh t st)) t := by
  intro hb
  have hpin : (a.system.proc t).pinned = true := hs.pinned hb
  simpa [Audit.perform, System.perform, System.refresh, Process.readStatFile_of_pinned hpin]
    using hc hb

/-- A migration keeps its thread listed exactly when it stays on the node, is not granted, or
the thread is not bulk-pinned. -/
theorem completeAt_migrate_iff (hs : Sound T a t) (hc : CompleteAt a t) :
    CompleteAt (a.perform T (.migrate t node)) t ↔
      (GrantsNode T a.system t node → a.bulkPinned t = true →
        (a.system.proc t).pinnedNumaNode = node) := by
  constructor
  · intro hafter hgrant hb
    obtain ⟨hnode, hmem⟩ := mem_pinThreadToNode_iff hs.coherent (hc hb) hgrant
    have hlist : t ∈ (pinThreadToNode T t node a.system).2.nodeTidMap _ := hafter hb
    exact (hmem.mp hlist).2
  · intro hstay hb
    have hlist : t ∈ a.system.nodeTidMap (a.system.proc t).pinnedNumaNode := hc hb
    change t ∈ (pinThreadToNode T t node a.system).2.nodeTidMap
      ((pinThreadToNode T t node a.system).2.proc t).pinnedNumaNode
    by_cases hgrant : GrantsNode T a.system t node
    · obtain ⟨hnode, hmem⟩ := mem_pinThreadToNode_iff hs.coherent hlist hgrant
      exact hmem.mpr ⟨hnode, hstay hgrant hb⟩
    · obtain ⟨htid, mask, hmask, hmask', -⟩ | ⟨-, heq⟩ | ⟨-, mask, -, -, heq⟩ :=
        pinThreadToNode_cases T t node a.system
      · exact absurd ⟨htid, mask, hmask, hmask'⟩ hgrant
      · rwa [heq]
      · rwa [heq]

/-- **Completeness**, one step. -/
theorem complete_perform_iff (hs : ∀ t, Sound T a t) (hc : Complete a) :
    Complete (a.perform T op) ↔ StaysOnNode T a op := by
  constructor
  · rintro hafter tid node rfl
    exact (completeAt_migrate_iff (hs tid) (hc tid)).mp (hafter tid)
  · intro hstay t
    by_cases hop : op.Names t
    · match op with
      | .pinProcess pid => exact hop ▸ CompleteAt.pinProcess (hc t)
      | .migrate tid dst =>
        obtain rfl : t = tid := hop
        exact (completeAt_migrate_iff (hs t) (hc t)).mpr (hstay t dst rfl)
      | .unpin pid => exact hop ▸ CompleteAt.unpin (hc t)
      | .refresh pid st => exact hop ▸ CompleteAt.refresh (hs t) (hc t)
      | .remove dropped =>
        intro hb
        simp only [Audit.perform, track, show t ∈ dropped.map Prod.fst from hop, decide_true,
          Bool.not_true, Bool.and_false] at hb
        exact absurd hb (by simp)
    · exact CompleteAt.of_not_names (hc t) hop

/-- Where every bulk-pinned thread is listed, a step lists its thread at the new node exactly
when it moves a bulk-pinned thread to the node it is pinned to. -/
theorem movesListing_iff (hs : ∀ t, Sound T a t) (hc : Complete a) :
    MovesListing T a op ↔ StaysOnNode T a op ∧ MovesBulkPinned T a op := by
  constructor
  · intro hmoves
    -- a thread that is not bulk-pinned is listed nowhere, and a migration lists no thread
    have hbulk : MovesBulkPinned T a op := by
      intro tid node hop hgrant
      have hlist := (hmoves tid node hop (pinThreadToNode_fst_iff.mpr hgrant) node).mpr rfl
      by_contra hb
      exact (hs tid).unlisted (by simpa using hb) node (mem_of_mem_pinThreadToNode hlist)
    refine ⟨fun tid node hop hgrant hb => ?_, hbulk⟩
    have hlist := (hmoves tid node hop (pinThreadToNode_fst_iff.mpr hgrant) node).mpr rfl
    exact ((mem_pinThreadToNode_iff (hs tid).coherent (hc tid hb) hgrant).2.mp hlist).2
  · rintro ⟨hstay, hbulk⟩ tid node hop hok n
    have hgrant := pinThreadToNode_fst_iff.mp hok
    have hb := hbulk tid node hop hgrant
    rw [(mem_pinThreadToNode_iff (hs tid).coherent (hc tid hb) hgrant).2]
    exact and_iff_left (hstay tid node hop hgrant hb)

/-- **Completeness.** Along a run every bulk-pinned thread is listed at its pinned node exactly
when every granted migration of a bulk-pinned thread is to the node it is pinned to; and
moreover every successful migration leaves its thread listed at the new node and at no other
exactly when, in addition, every granted migration is of a bulk-pinned thread. -/
theorem complete_along_run_iff (T : Topology) (root : Pid) (info : Pid → ProcInfo R)
    (kernel : Kernel) (ops : List (Op R)) :
    (AlongRun (perform T) Complete (boot T root info kernel) ops ↔
      StepsOfRun (perform T) (StaysOnNode T) (boot T root info kernel) ops) ∧
    (AlongRun (perform T) Complete (boot T root info kernel) ops ∧
        StepsOfRun (perform T) (MovesListing T) (boot T root info kernel) ops ↔
      StepsOfRun (perform T) (fun a op => StaysOnNode T a op ∧ MovesBulkPinned T a op)
        (boot T root info kernel) ops) := by
  have hsound : ∀ pre t, Sound T (run (perform T) (boot T root info kernel) pre) t :=
    fun pre t => run_invariant (I := (Sound T · t)) sound_boot fun _ op hs => hs.perform op
  have hcomplete : AlongRun (perform T) Complete (boot T root info kernel) ops ↔
      StepsOfRun (perform T) (StaysOnNode T) (boot T root info kernel) ops :=
    alongRun_iff_stepsOfRun (I := fun a => ∀ t, Sound T a t) (fun _ => sound_boot)
      (fun _ op hs t => (hs t).perform op)
      (fun _ hb => absurd hb (by simp [boot]))
      (fun _ _ hs hc => complete_perform_iff hs hc)
  refine ⟨hcomplete, ?_, fun hsteps => ?_⟩
  · rintro ⟨hrun, hmoves⟩ pre op hpre
    have hc := hrun pre ((List.prefix_append pre [op]).trans hpre)
    exact (movesListing_iff (hsound pre) hc).mp (hmoves pre op hpre)
  · have hrun := hcomplete.mpr fun pre op hpre => (hsteps pre op hpre).1
    refine ⟨hrun, fun pre op hpre => ?_⟩
    have hc := hrun pre ((List.prefix_append pre [op]).trans hpre)
    exact (movesListing_iff (hsound pre) hc).mpr (hsteps pre op hpre)

/-- A bulk-pinned thread is migrated from node 0 to node 1: it is listed at neither. -/
theorem not_complete_after_migration :
    ¬ ∀ (T : Topology) (root : Pid) (info : Pid → ProcInfo ℚ) (kernel : Kernel)
      (ops : List (Op ℚ)), Complete (run (perform T) (boot T root info kernel) ops) := by
  intro h
  have hlist := h (Topology.regular 2 1 Nat.two_pos Nat.one_pos) 1
    (fun _ => ⟨none, true, false, ⟨'R', 0, 0, 1⟩⟩) ⟨fun _ => true, 0, fun _ => {0, 1}, {0, 1}⟩
    [.pinProcess 1, .migrate 1 1] 1 (by decide)
  exact absurd hlist (by decide)

end Audit

end System

end Thanos
