import Thanos.SystemInfo.PlacementRuns

/-!
# The affinity masks of listed threads

Under CPU granularity a thread that is listed at a CPU should have that CPU as its affinity
mask. `process::unpin` installs the mask of the profiler and leaves the `pinned` flag set, and
`process::pin` issues no call for a process that is flagged pinned and last ran on the
requested CPU. A thread to which both happen lingers (`Lingers`): the next bulk pin lists it
again without restoring its mask.

* **Affinity** (`masksMatch_along_run_iff`): along a run the masks match the map exactly when
  no bulk pin reaches a thread that lingers.
-/

namespace Thanos

namespace System

variable {R : Type} {T : Topology} {s : System R} {t : Pid}

/-- The mask of a thread is the CPU it is listed at. -/
def MaskMatches (s : System R) (t : Pid) : Prop :=
  ∀ c, t ∈ s.cpuTidMap c → s.kernel.affinity t = {c}

/-- The mask of every listed thread is the CPU it is listed at. -/
def MasksMatch (s : System R) : Prop :=
  ∀ t, MaskMatches s t

/-- A thread that was unpinned but is still flagged pinned: it last ran on its pinned CPU, so
that `pin` issues no call for it, while its mask is the one of the profiler. -/
def Lingers (s : System R) (t : Pid) : Prop :=
  (s.proc t).pinned = true ∧ (s.proc t).processor = (s.proc t).pinnedProcessor ∧
    s.kernel.affinity t = s.kernel.profilerAffinity ∧
      s.kernel.profilerAffinity ≠ {(s.proc t).pinnedProcessor}

/-- The operation is no bulk pin of a thread that lingers. -/
def PinsNoLingering (s : System R) (op : Op R) : Prop :=
  ∀ pid, op = .pinProcess pid → ¬ Lingers s pid

theorem MaskMatches.of_sameThread {s' : System R} (h : SameThread s s' t)
    (hs : MaskMatches s t) : MaskMatches s' t := by
  intro c hc
  rw [h.affinity]
  exact hs c ((h.cpu c).mp hc)

/-- A bulk pin gives a thread the mask of its CPU unless the thread lingers. -/
theorem maskMatches_pinProcess_iff (hs : CpuCoherent s t) (hmask : MaskMatches s t) :
    MaskMatches (pinProcessToCpu T t s).2 t ↔ ¬ Lingers s t := by
  obtain ⟨hcpu, hpin, heq⟩ | ⟨hshort, p, rfl, heq⟩ | ⟨hshort, heq⟩ := pinProcessToCpu_cases T t s
  · -- no call is issued: the mask is still that of the last pin or unpin
    rw [heq]
    constructor
    · rintro hafter ⟨-, -, haff, hne⟩
      have hset := hafter _ (mem_insertCpu.mpr (.inr ⟨rfl, rfl⟩))
      exact hne (haff.symm.trans hset)
    · intro hlinger c hc
      have hpinned : s.kernel.affinity t = {(s.proc t).pinnedProcessor} := by
        obtain h | h := hs.mask hpin
        · exact h
        · by_contra hne
          exact hlinger ⟨hpin, hcpu.symm, h, fun heq => hne (h.trans heq)⟩
      obtain hc | ⟨-, rfl⟩ := mem_insertCpu.mp hc
      · exact hmask c hc
      · exact hpinned
  · rw [heq]
    refine iff_of_true (fun c hc => ?_) fun h => hshort ⟨h.2.1.symm, h.1⟩
    obtain hc | ⟨-, rfl⟩ := mem_insertCpu.mp hc
    · simp [(hs.listed c hc).2]
    · simp
  · rw [heq]
    exact iff_of_true (hmask.of_sameThread refused_sameThread) fun h => hshort ⟨h.2.1.symm, h.1⟩

theorem MaskMatches.migrate {cpu : Cpu} (hs : CpuCoherent s t) (hmask : MaskMatches s t) :
    MaskMatches (pinThreadToCpu T t cpu s).2 t := by
  have hafter : CpuCoherent (pinThreadToCpu T t cpu s).2 t := hs.migrate
  obtain ⟨-, -, -, heq⟩ | ⟨-, -, -, heq⟩ | ⟨-, heq⟩ | ⟨-, -, -, heq⟩ :=
    pinThreadToCpu_cases T t cpu s
  · rw [heq]
    exact hmask
  · -- a granted call installs the mask of the CPU at which the thread is listed now
    rw [heq] at hafter ⊢
    intro c hc
    rw [← (hafter.listed c hc).2]
    simp
  · rw [heq]
    exact hmask
  · rw [heq]
    exact hmask.of_sameThread refused_sameThread

theorem MaskMatches.unpin (hs : CpuCoherent s t) (hmask : MaskMatches s t) :
    MaskMatches (unpinThread t s).2 t := by
  obtain ⟨k, -, heq⟩ | heq := unpinThread_cases t s
  · rw [heq]
    intro c hc
    rw [eraseNode_cpuTidMap, mem_eraseCpu] at hc
    exact absurd ⟨rfl, (hs.listed c hc.1).2.symm⟩ hc.2
  · rw [heq]
    exact hmask.of_sameThread refused_sameThread

/-- **Masks of listed threads**, one step. -/
theorem masksMatch_perform_iff {op : Op R} (hs : ∀ t, CpuCoherent s t) (hmask : MasksMatch s) :
    MasksMatch (perform T .cpu s op) ↔ PinsNoLingering s op := by
  have hothers : ∀ t, ¬ op.Names t → MaskMatches (perform T .cpu s op) t := fun t ht =>
    MaskMatches.of_sameThread (perform_sameThread ht) (hmask t)
  constructor
  · rintro hafter pid rfl
    exact (maskMatches_pinProcess_iff (hs pid) (hmask pid)).mp (hafter pid)
  · intro hgood t
    by_cases hop : op.Names t
    · match op with
      | .pinProcess pid =>
        obtain rfl : t = pid := hop
        exact (maskMatches_pinProcess_iff (hs t) (hmask t)).mpr (hgood t rfl)
      | .migrate tid dst => exact hop ▸ MaskMatches.migrate (hs t) (hmask t)
      | .unpin pid => exact hop ▸ MaskMatches.unpin (hs t) (hmask t)
      | .refresh pid st => exact hmask t
      | .remove dropped => exact fun c hc => absurd hc ((remove_of_mem hop).2.1 c)
    · exact hothers t hop

/-- **Affinity.** Along a run under CPU granularity every listed thread has the mask of its
CPU exactly when no bulk pin of the run reaches a thread that lingers. -/
theorem masksMatch_along_run_iff (T : Topology) (root : Pid) (info : Pid → ProcInfo R)
    (kernel : Kernel) (ops : List (Op R)) :
    AlongRun (perform T .cpu) MasksMatch (boot T root info kernel) ops ↔
      StepsOfRun (perform T .cpu) PinsNoLingering (boot T root info kernel) ops :=
  alongRun_iff_stepsOfRun (I := fun s => ∀ t, CpuCoherent s t) (fun _ => cpuCoherent_boot)
    (fun _ op hs t => (hs t).perform op)
    (fun _ _ hc => absurd hc OrderedSet.notMem_empty)
    (fun _ _ hs hmask => masksMatch_perform_iff hs hmask)

/-- A thread is pinned, unpinned and pinned again before it has left its CPU: it is listed at
that CPU with the mask of the profiler. -/
theorem not_masksMatch_after_repin :
    ¬ ∀ (T : Topology) (root : Pid) (info : Pid → ProcInfo ℚ) (kernel : Kernel)
      (ops : List (Op ℚ)), MasksMatch (run (perform T .cpu) (boot T root info kernel) ops) := by
  intro h
  have hmatch := h (Topology.regular 1 2 Nat.one_pos Nat.two_pos) 1
    (fun _ => ⟨none, true, false, ⟨'R', 0, 0, 1⟩⟩) ⟨fun _ => true, 0, fun _ => {0, 1}, {0, 1}⟩
    [.pinProcess 1, .unpin 1, .pinProcess 1] 1 0 (by decide)
  exact absurd hmatch (by decide)

end System

end Thanos
