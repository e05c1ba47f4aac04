import Thanos.SystemInfo.PlacementRuns

/-!
# Operations on some of the threads

What the strategies and the main loop do to the placement are operations on some threads. The
threads that none of them names stay as they are (`RunsOn.sameThread`), and the coherence of the
placement is preserved (`Coherent.of_runsOn`).
-/

namespace Thanos

/-- What holds of every thread, under either granularity. -/
def Coherent {R : Type} (T : Topology) (s : System R) (t : Pid) : Granularity → Prop
  | .cpu => System.CpuCoherent s t
  | .node => System.NodeCoherent T s t

namespace System

variable {R : Type} {T : Topology} {g : Granularity} {s s' : System R} {pids : List Pid}
  {t : Pid} {threads : Set Pid}

/-- The threads that an operation names are among these. -/
def NamesOnly (threads : Set Pid) (op : Op R) : Prop :=
  ∀ t, op.Names t → t ∈ threads

/-- The operation moves one of these threads. -/
inductive Moves (threads : Set Pid) : Op R → Prop
  | migrate {tid : Pid} (dst : ℕ) (h : tid ∈ threads) : Moves threads (.migrate tid dst)

/-- The second state is reached from the first by operations on these threads. -/
abbrev RunsOn (T : Topology) (g : Granularity) (threads : Set Pid) (s s' : System R) : Prop :=
  Runs (perform T g) (NamesOnly threads) s s'

theorem namesOnly_univ (op : Op R) : NamesOnly Set.univ op :=
  fun t _ => Set.mem_univ t

theorem Moves.namesOnly {op : Op R} (h : Moves threads op) : NamesOnly threads op := by
  obtain ⟨dst, htid⟩ := h
  rintro t rfl
  exact htid

theorem namesOnly_pinProcess {pid : Pid} (h : pid ∈ threads) :
    NamesOnly threads (.pinProcess pid : Op R) := by
  rintro t rfl
  exact h

theorem namesOnly_unpin {pid : Pid} (h : pid ∈ threads) :
    NamesOnly threads (.unpin pid : Op R) := by
  rintro t rfl
  exact h

theorem namesOnly_refresh {pid : Pid} {st : Stat R} (h : pid ∈ threads) :
    NamesOnly threads (.refresh pid st : Op R) := by
  rintro t rfl
  exact h

/-- **Frame.** The threads that are not named stay as they are. -/
theorem RunsOn.sameThread (h : RunsOn T g threads s s') (ht : t ∉ threads) :
    SameThread s s' t :=
  h.invariant (I := fun u => SameThread s u t) (.refl s t) fun _ _ hop hu =>
    hu.trans (perform_sameThread fun hnames => ht (hop t hnames))

/-- Pinning all threads is a run on them. -/
theorem RunsOn.pinAll (hroot : s.root ∈ threads) (hpids : ∀ pid ∈ pids, pid ∈ threads) :
    RunsOn T g threads s (System.pinAll T g pids s).2 :=
  .forEach fun pid hpid _ =>
    .single (namesOnly_pinProcess ((List.mem_cons.mp hpid).elim (· ▸ hroot) (hpids pid)))

/-- Pinning the threads that are not idle is a run on all of them. -/
theorem RunsOn.pinNonIdle [RealT R] (hroot : s.root ∈ threads)
    (hpids : ∀ pid ∈ pids, pid ∈ threads) :
    RunsOn T g threads s (System.pinNonIdle T g pids s).2 := by
  refine Runs.trans (.single (namesOnly_pinProcess hroot)) (.forEach fun pid hpid s => ?_)
  cases s.isIdle pid with
  | true => exact .single (namesOnly_unpin (hpids pid hpid))
  | false => exact .single (namesOnly_pinProcess (hpids pid hpid))

/-- `pin_threads_cpu` or `pin_threads_node`. -/
def pinThreads [RealT R] (T : Topology) (ignoreIdle : Bool) (allChildren : List Pid)
    (s : System R) : Granularity → Bool × System R
  | .cpu => s.pinThreadsCpu T ignoreIdle allChildren
  | .node => s.pinThreadsNode T ignoreIdle allChildren

theorem RunsOn.pinThreads [RealT R] {ignoreIdle : Bool} (hroot : s.root ∈ threads)
    (hpids : ∀ pid ∈ pids, pid ∈ threads) :
    RunsOn T g threads s (s.pinThreads T ignoreIdle pids g).2 := by
  have hall := RunsOn.pinAll (T := T) (g := g) hroot hpids
  have hnonIdle := RunsOn.pinNonIdle (T := T) (g := g) hroot hpids
  cases g <;> cases ignoreIdle <;> assumption

/-- Processes that are refreshed are run. -/
theorem RunsOn.refresh (stats : Pid → Stat R) (hpids : ∀ pid ∈ pids, pid ∈ threads) :
    RunsOn T g threads s (pids.foldl (fun s pid => s.refresh T pid (stats pid)) s) :=
  .run fun pid hpid _ => .single (namesOnly_refresh (hpids pid hpid))

/-- The thread is listed at some CPU or at some node. -/
def Listed (s : System R) (t : Pid) : Prop :=
  (∃ c, t ∈ s.cpuTidMap c) ∨ ∃ n, t ∈ s.nodeTidMap n

/-- Threads are listed that were listed before, or that are named. -/
theorem RunsOn.listed (h : RunsOn T g threads s s') (hlisted : ∀ t, s.Listed t → t ∈ threads)
    {t : Pid} (ht : s'.Listed t) : t ∈ threads := by
  by_contra hnot
  refine hnot (hlisted t ?_)
  have hsame := h.sameThread hnot
  obtain ⟨c, hc⟩ | ⟨n, hn⟩ := ht
  · exact .inl ⟨c, (hsame.cpu c).mp hc⟩
  · exact .inr ⟨n, (hsame.node n).mp hn⟩

/-! ### The root -/

theorem removeInvalidData_root : (s.removeInvalidData pids).root = s.root := by
  induction pids generalizing s with
  | nil => rfl
  | cons pid pids ih => exact @ih (s.forget pid)

theorem foldl_dropProcess_root {dropped : List (Pid × ProcInfo R)} :
    (dropped.foldl (dropProcess T) s).root = s.root := by
  induction dropped generalizing s with
  | nil => rfl
  | cons d dropped ih => exact ih

theorem movedToCpu_root {tid : Pid} {cpu : Cpu} : (movedToCpu T tid cpu s).root = s.root := by
  dsimp only [movedToCpu]
  split_ifs <;> rfl

theorem movedToNode_root {tid : Pid} {node : Node} {mask : CpuSet} :
    (movedToNode T tid node mask s).root = s.root := by
  dsimp only [movedToNode]
  split_ifs <;> rfl

/-- The root is never replaced. -/
theorem perform_root (op : Op R) : (perform T g s op).root = s.root := by
  match g, op with
  | .cpu, .pinProcess pid =>
    simp only [perform, pinProcess, pinProcessToCpu]
    split <;> rfl
  | .node, .pinProcess pid =>
    simp only [perform, pinProcess, pinProcessToNode]
    split <;> rfl
  | .cpu, .migrate tid dst =>
    simp only [perform, pinThread]
    obtain ⟨-, -, -, heq⟩ | ⟨-, -, -, heq⟩ | ⟨-, heq⟩ | ⟨-, -, -, heq⟩ :=
      pinThreadToCpu_cases T tid dst s
    · rw [heq]
    · rw [heq]
      exact movedToCpu_root
    · rw [heq]
    · rw [heq]
      rfl
  | .node, .migrate tid dst =>
    simp only [perform, pinThread]
    obtain ⟨-, mask, -, -, heq⟩ | ⟨-, heq⟩ | ⟨-, mask, -, -, heq⟩ :=
      pinThreadToNode_cases T tid dst s
    · rw [heq]
      exact movedToNode_root
    · rw [heq]
    · rw [heq]
      rfl
  | _, .unpin pid =>
    simp only [perform, unpinThread]
    split <;> rfl
  | _, .refresh pid st => rfl
  | _, .remove dropped => exact removeInvalidData_root.trans foldl_dropProcess_root

theorem RunsOn.root (h : RunsOn T g threads s s') : s'.root = s.root :=
  h.invariant (I := fun u : System R => u.root = s.root) rfl
    fun _ op _ hu => (perform_root op).trans hu

end System

/-! ### Coherence -/

section Coherence

variable {R : Type} {T : Topology} {g : Granularity} {s s' : System R} {t : Pid}
  {threads : Set Pid}

theorem coherent_boot {root : Pid} {info : Pid → ProcInfo R} {kernel : Kernel} :
    Coherent T (System.boot T root info kernel) t g := by
  cases g with
  | cpu => exact System.cpuCoherent_boot
  | node => exact System.nodeCoherent_boot

theorem Coherent.of_runsOn (h : Coherent T s t g) (hrun : System.RunsOn T g threads s s') :
    Coherent T s' t g := by
  cases g with
  | cpu => exact hrun.invariant (I := (System.CpuCoherent · t)) h fun _ op _ hs => hs.perform op
  | node =>
    exact hrun.invariant (I := (System.NodeCoherent T · t)) h fun _ op _ hs => hs.perform op

end Coherence

end Thanos
