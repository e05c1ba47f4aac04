import Thanos.SystemInfo.Daemon
import Thanos.SystemInfo.InvalidProcesses

/-!
# Giving the affinities back

When it ends, the profiler unpins the threads of its tree (`unpinAllThreads`), and the processes
that are destructed afterwards unpin themselves once more (`endSystem`). The record of a thread
stays pinned all the while, so that a refused call is repeated by the destructor.

* **Masks** (`KnownMask.perform`): a thread that has not been pinned has the mask it was created
  with, and a pinned one that of the profiler or the one it is recorded with.
* **Giving back** (`KnownMask.restored`): at the end, a pinned thread has the mask of the
  profiler, and every other thread the one it was created with.
* **The daemon** (`restored_of_reachable`): this holds of the threads of its tree, in every state
  that is reached. No process of the tree is invalid then (`invalid_of_reachable`), so that
  `erase_invalid` erases none.
-/

namespace Thanos

/-- The operation does not drop the thread from the tree. -/
inductive Op.Keeps {R : Type} (t : Pid) : Op R → Prop
  | pinProcess (pid : Pid) : Keeps t (.pinProcess pid)
  | migrate (tid : Pid) (dst : ℕ) : Keeps t (.migrate tid dst)
  | unpin (pid : Pid) : Keeps t (.unpin pid)
  | refresh (pid : Pid) (st : Stat R) : Keeps t (.refresh pid st)
  | remove {dropped : List (Pid × ProcInfo R)} (h : t ∉ dropped.map Prod.fst) :
      Keeps t (.remove dropped)

/-- Every affinity call from now on is granted, that for the mask of the profiler too. -/
structure Kernel.Willing (k : Kernel) : Prop where
  outcome : ∀ n, k.calls ≤ n → k.outcome n = true
  size_pos : 0 < k.profilerAffinity.size

namespace System

variable {R : Type} (T : Topology)

/-! ### The end of the profiler -/

/-- The loop body of `unpin_all_threads`: the maps keep the thread. -/
def unpinChild (pid : Pid) (s : System R) : Bool × System R :=
  let u := (s.proc pid).unpin pid s.kernel
  (u.1, { s with kernel := u.2 })

/-- `unpin_all_threads`: the root, which `pin_all_threads` pins, is not among the threads. -/
def unpinAllThreads (allChildren : List Pid) (s : System R) : Bool × System R :=
  forEach unpinChild allChildren s

/-- `end` of `system_info`, and the destructors of the processes. -/
def endSystem (allChildren : List Pid) (dropped : List (Pid × ProcInfo R)) (s : System R) :
    System R :=
  dropped.foldl (dropProcess T) (unpinAllThreads allChildren s).2

/-- The mask is that of the CPU or of the node that the process is recorded with. -/
def Recorded (p : Process R) (mask : CpuSet) : Granularity → Prop
  | .cpu => mask = {p.pinnedProcessor}
  | .node => T.numaNodeToCpus p.pinnedNumaNode = some mask

/-- What is known about the mask of a thread that was found with the mask `original`, when the
mask of the profiler is `ours`. -/
structure KnownMask (g : Granularity) (original ours : CpuSet) (s : System R) (t : Pid) :
    Prop where
  profiler : s.kernel.profilerAffinity = ours
  free : (s.proc t).pinned = false → s.kernel.affinity t = original
  bound : (s.proc t).pinned = true →
    s.kernel.affinity t = ours ∨ Recorded T (s.proc t) (s.kernel.affinity t) g

variable {T} {g : Granularity} {s s' s'' : System R} {t pid : Pid} {original ours : CpuSet}

/-! ### The masks during a run -/

theorem KnownMask.of_sameThread (h : SameThread s s' t) (hs : KnownMask T g original ours s t) :
    KnownMask T g original ours s' t := by
  refine ⟨h.profiler.trans hs.profiler, fun hpin => ?_, fun hpin => ?_⟩
  · rw [h.proc] at hpin
    rw [h.affinity]
    exact hs.free hpin
  · rw [h.proc] at hpin
    rw [h.proc, h.affinity]
    exact hs.bound hpin

/-- A thread whose record and mask agree is known. -/
theorem knownMask_of_recorded (hprofiler : s.kernel.profilerAffinity = ours)
    (hpin : (s.proc t).pinned = true)
    (hmask : Recorded T (s.proc t) (s.kernel.affinity t) g) :
    KnownMask T g original ours s t :=
  ⟨hprofiler, fun hfree => absurd hfree (by simp [hpin]), fun _ => .inr hmask⟩

theorem KnownMask.pinProcess (hs : KnownMask T g original ours s t) :
    KnownMask T g original ours (pinProcess T g t s).2 t := by
  cases g with
  | cpu =>
    change KnownMask T .cpu original ours (pinProcessToCpu T t s).2 t
    obtain ⟨-, hpin, heq⟩ | ⟨-, p, rfl, heq⟩ | ⟨-, heq⟩ := pinProcessToCpu_cases T t s
    · -- the shortcut only lists the thread
      rw [heq]
      exact ⟨hs.profiler, hs.free, hs.bound⟩
    · rw [heq]
      exact knownMask_of_recorded (by simpa using hs.profiler) (by simp) (by simp [Recorded])
    · rw [heq]
      exact hs.of_sameThread refused_sameThread
  | node =>
    change KnownMask T .node original ours (pinProcessToNode T t s).2 t
    obtain ⟨mask, p, hmask, -, rfl, heq⟩ | heq | heq := pinProcessToNode_cases T t s
    · rw [heq]
      refine knownMask_of_recorded (by simpa using hs.profiler) (by simp) ?_
      simpa [Recorded] using hmask
    · rw [heq]
      exact hs
    · rw [heq]
      exact hs.of_sameThread refused_sameThread

theorem KnownMask.migrate {dst : ℕ} (hs : KnownMask T g original ours s t) :
    KnownMask T g original ours (pinThread T g t dst s).2 t := by
  cases g with
  | cpu =>
    change KnownMask T .cpu original ours (pinThreadToCpu T t dst s).2 t
    obtain ⟨-, -, -, heq⟩ | ⟨-, -, -, heq⟩ | ⟨-, heq⟩ | ⟨-, -, -, heq⟩ :=
      pinThreadToCpu_cases T t dst s
    · rw [heq]
      exact hs
    · rw [heq]
      exact knownMask_of_recorded (by simpa using hs.profiler) (by simp) (by simp [Recorded])
    · rw [heq]
      exact hs
    · rw [heq]
      exact hs.of_sameThread refused_sameThread
  | node =>
    change KnownMask T .node original ours (pinThreadToNode T t dst s).2 t
    obtain ⟨-, mask, hmask, -, heq⟩ | ⟨-, heq⟩ | ⟨-, mask, -, -, heq⟩ :=
      pinThreadToNode_cases T t dst s
    · rw [heq]
      refine knownMask_of_recorded (by simpa using hs.profiler) (by simp) ?_
      simpa [Recorded] using hmask
    · rw [heq]
      exact hs
    · rw [heq]
      exact hs.of_sameThread refused_sameThread

theorem KnownMask.unpin (hs : KnownMask T g original ours s t) :
    KnownMask T g original ours (unpinThread t s).2 t := by
  obtain ⟨k, ⟨-, rfl⟩ | ⟨hpin, rfl⟩, heq⟩ | heq := unpinThread_cases t s
  · rw [heq]
    exact ⟨hs.profiler, hs.free, hs.bound⟩
  · rw [heq]
    refine ⟨by simpa using hs.profiler, fun hfree => ?_, fun _ => .inl ?_⟩
    · simp [hpin] at hfree
    · simpa using hs.profiler
  · rw [heq]
    exact hs.of_sameThread refused_sameThread

theorem KnownMask.refresh {st : Stat R} (hs : KnownMask T g original ours s t) :
    KnownMask T g original ours (refresh T t st s) t := by
  refine ⟨hs.profiler, fun hfree => ?_, fun hpin => ?_⟩
  · exact hs.free (by simpa [System.refresh] using hfree)
  · have hpin' : (s.proc t).pinned = true := by simpa [System.refresh] using hpin
    have hkept : ((s.proc t).readStatFile T st).pinnedProcessor = (s.proc t).pinnedProcessor ∧
        ((s.proc t).readStatFile T st).pinnedNumaNode = (s.proc t).pinnedNumaNode :=
      Process.readStatFile_of_pinned hpin'
    -- a read leaves the recorded place of a pinned process alone
    obtain ⟨hcpu, hnode⟩ := hkept
    refine (hs.bound hpin').imp_right fun hmask => ?_
    cases g with
    | cpu => simpa [System.refresh, Recorded, hcpu] using hmask
    | node => simpa [System.refresh, Recorded, hnode] using hmask

/-- **The masks**, one step. -/
theorem KnownMask.perform (hs : KnownMask T g original ours s t) {op : Op R}
    (hkept : op.Keeps t) : KnownMask T g original ours (perform T g s op) t := by
  by_cases hop : op.Names t
  · cases hkept with
    | pinProcess pid => exact hop ▸ hs.pinProcess
    | migrate tid dst => exact hop ▸ hs.migrate
    | unpin pid => exact hop ▸ hs.unpin
    | refresh pid st => exact hop ▸ hs.refresh
    | remove hnot => exact absurd hop hnot
  · exact hs.of_sameThread (perform_sameThread hop)

/-- **The masks**, over operations that keep the thread. -/
theorem KnownMask.of_runs (hs : KnownMask T g original ours s t)
    (h : Runs (System.perform T g) (Op.Keeps t) s s') :
    KnownMask T g original ours s' t :=
  h.invariant (I := (KnownMask T g original ours · t)) hs fun _ _ hkept hu => hu.perform hkept

/-- Pinning all threads, or those that are not idle, keeps every thread. -/
theorem keeps_pinThreads [RealT R] {ignoreIdle : Bool} {allChildren : List Pid} :
    Runs (System.perform T g) (Op.Keeps t) s (s.pinThreads T ignoreIdle allChildren g).2 := by
  have hall : Runs (System.perform T g) (Op.Keeps t) s (pinAll T g allChildren s).2 :=
    .forEach fun pid _ _ => .single (Op.Keeps.pinProcess pid)
  have hnonIdle : Runs (System.perform T g) (Op.Keeps t) s (pinNonIdle T g allChildren s).2 := by
    refine Runs.trans (.single (Op.Keeps.pinProcess s.root)) (.forEach fun pid _ s => ?_)
    cases s.isIdle pid with
    | true => exact .single (Op.Keeps.unpin pid)
    | false => exact .single (Op.Keeps.pinProcess pid)
  cases g <;> cases ignoreIdle <;> assumption

/-! ### The masks at the end -/

/-- What giving back may do to a thread: it keeps its mask, or it was pinned and has the mask of
the profiler. -/
structure GivesBack (s s' : System R) (t : Pid) : Prop where
  profiler : s'.kernel.profilerAffinity = s.kernel.profilerAffinity
  pinned : (s'.proc t).pinned = true → (s.proc t).pinned = true
  affinity : s'.kernel.affinity t = s.kernel.affinity t ∨
    (s.proc t).pinned = true ∧ s'.kernel.affinity t = s.kernel.profilerAffinity

theorem GivesBack.refl (s : System R) (t : Pid) : GivesBack s s t :=
  ⟨rfl, id, .inl rfl⟩

theorem GivesBack.trans (h : GivesBack s s' t) (h' : GivesBack s' s'' t) :
    GivesBack s s'' t := by
  refine ⟨h'.profiler.trans h.profiler, h.pinned ∘ h'.pinned, ?_⟩
  obtain hsame | ⟨hpin, hmask⟩ := h'.affinity
  · rw [hsame]
    exact h.affinity
  · exact .inr ⟨h.pinned hpin, hmask.trans h.profiler⟩

theorem GivesBack.of_sameThread (h : SameThread s s' t) : GivesBack s s' t :=
  ⟨h.profiler, fun hpin => by rwa [h.proc] at hpin, .inl h.affinity⟩

/-- A thread with the mask of the profiler keeps it. -/
theorem GivesBack.eq_profiler (h : GivesBack s s' t)
    (hmask : s.kernel.affinity t = s.kernel.profilerAffinity) :
    s'.kernel.affinity t = s.kernel.profilerAffinity :=
  h.affinity.elim (·.trans hmask) And.right

/-- What `unpin` may do to the masks. -/
theorem unpin_kernel (pid : Pid) (p : Process R) (k : Kernel) :
    (p.unpin pid k).2.profilerAffinity = k.profilerAffinity ∧
      (∀ q, q ≠ pid → (p.unpin pid k).2.affinity q = k.affinity q) ∧
      ((p.unpin pid k).2.affinity pid = k.affinity pid ∨
        p.pinned = true ∧ (p.unpin pid k).2.affinity pid = k.profilerAffinity) := by
  obtain ⟨-, heq⟩ | ⟨hpin, heq⟩ | ⟨-, heq⟩ := Process.unpin_cases pid p k
  · rw [heq]
    exact ⟨rfl, fun _ _ => rfl, .inl rfl⟩
  · rw [heq]
    exact ⟨rfl, fun q hq => k.granted_affinity_of_ne pid _ hq, .inr ⟨hpin, by simp⟩⟩
  · rw [heq]
    exact ⟨rfl, fun _ _ => rfl, .inl rfl⟩

theorem unpinChild_givesBack : GivesBack s (unpinChild pid s).2 t := by
  obtain ⟨hprofiler, hframe, hself⟩ := unpin_kernel pid (s.proc pid) s.kernel
  by_cases h : t = pid
  · subst h
    exact ⟨hprofiler, id, hself⟩
  · exact ⟨hprofiler, id, .inl (hframe t h)⟩

theorem dropProcess_givesBack {d : Pid × ProcInfo R} : GivesBack s (dropProcess T s d) t := by
  by_cases h : t = d.1
  · subst h
    obtain ⟨hprofiler, -, hself⟩ := unpin_kernel d.1 (s.proc d.1) s.kernel
    -- the process that takes its place is not pinned
    refine ⟨hprofiler, fun hpin => ?_, hself⟩
    simp [dropProcess] at hpin
  · exact .of_sameThread (dropProcess_sameThread h)

theorem unpinAllThreads_givesBack {allChildren : List Pid} :
    GivesBack s (unpinAllThreads allChildren s).2 t := by
  rw [unpinAllThreads, forEach_snd]
  exact run_invariant (I := (GivesBack s · t)) (.refl s t) fun _ _ hu =>
    hu.trans unpinChild_givesBack

theorem foldl_dropProcess_givesBack {dropped : List (Pid × ProcInfo R)} :
    GivesBack s (dropped.foldl (dropProcess T) s) t := by
  change GivesBack s (run (dropProcess T) s dropped) t
  exact run_invariant (I := (GivesBack s · t)) (.refl s t) fun _ _ hu =>
    hu.trans dropProcess_givesBack

theorem unpinAllThreads_proc {allChildren : List Pid} :
    (unpinAllThreads allChildren s).2.proc = s.proc := by
  rw [unpinAllThreads, forEach_snd]
  exact run_invariant (I := fun u : System R => u.proc = s.proc) rfl fun _ _ hu => hu

/-- A pinned thread whose call is granted has the mask of the profiler. -/
theorem unpinChild_affinity (hpin : (s.proc t).pinned = true)
    (hok : (unpinChild t s).1 = true) :
    (unpinChild t s).2.kernel.affinity t = s.kernel.profilerAffinity := by
  obtain ⟨hfree, -⟩ | ⟨-, heq⟩ | ⟨-, heq⟩ := Process.unpin_cases t (s.proc t) s.kernel
  · simp [hpin] at hfree
  · simp [unpinChild, heq]
  · simp [unpinChild, heq] at hok

/-- **`unpin_all_threads`.** If it succeeds, the pinned threads have the mask of the profiler. -/
theorem unpinAllThreads_affinity {allChildren : List Pid} (hpin : (s.proc t).pinned = true)
    (ht : t ∈ allChildren) (hok : (unpinAllThreads allChildren s).1 = true) :
    (unpinAllThreads allChildren s).2.kernel.affinity t = s.kernel.profilerAffinity := by
  obtain ⟨pre, post, rfl⟩ := List.append_of_mem ht
  have hcall := forEach_fst_iff.mp hok pre t ⟨post, by simp⟩
  rw [unpinAllThreads, forEach_snd, run_append, run_cons]
  have hbefore : GivesBack s (unpinAllThreads pre s).2 t := unpinAllThreads_givesBack
  have hproc : (unpinAllThreads pre s).2.proc = s.proc := unpinAllThreads_proc
  rw [unpinAllThreads, forEach_snd] at hbefore hproc
  generalize run (fun s i => (unpinChild i s).2) s pre = u at hcall hbefore hproc ⊢
  have hmask := unpinChild_affinity (hproc ▸ hpin) hcall
  have hchild : GivesBack u (unpinChild t u).2 t := unpinChild_givesBack
  -- the calls for the threads after this one leave its mask alone
  have hafter : GivesBack (unpinChild t u).2 (unpinAllThreads post (unpinChild t u).2).2 t :=
    unpinAllThreads_givesBack
  rw [unpinAllThreads, forEach_snd] at hafter
  rw [hafter.eq_profiler (hmask.trans hchild.profiler.symm), hchild.profiler, hbefore.profiler]

/-! ### Calls that are granted -/

theorem unpin_willing (pid : Pid) (p : Process R) {k : Kernel} (h : k.Willing) :
    (p.unpin pid k).1 = true ∧ (p.unpin pid k).2.Willing := by
  obtain ⟨-, heq⟩ | ⟨-, heq⟩ | ⟨hpin, heq⟩ := Process.unpin_cases pid p k
  · rw [heq]
    exact ⟨rfl, h⟩
  · rw [heq]
    exact ⟨rfl, fun n hn => h.outcome n (by simpa using Nat.le_of_succ_le hn), h.size_pos⟩
  · have hgrant : k.grants k.profilerAffinity = true := by
      simp [Kernel.grants, h.outcome k.calls le_rfl, h.size_pos]
    simp [Process.unpin, hpin, Kernel.schedSetaffinity, hgrant] at heq

theorem unpinAllThreads_willing {allChildren : List Pid} (h : s.kernel.Willing) :
    (unpinAllThreads allChildren s).2.kernel.Willing := by
  rw [unpinAllThreads, forEach_snd]
  exact run_invariant (I := fun u : System R => u.kernel.Willing) h fun u pid hu =>
    (unpin_willing pid (u.proc pid) hu).2

/-- A pinned process that is destructed gives the thread the mask of the profiler. -/
theorem foldl_dropProcess_affinity {dropped : List (Pid × ProcInfo R)} (h : s.kernel.Willing)
    (hpin : (s.proc t).pinned = true) (ht : t ∈ dropped.map Prod.fst) :
    (dropped.foldl (dropProcess T) s).kernel.affinity t = s.kernel.profilerAffinity := by
  induction dropped generalizing s with
  | nil => simp at ht
  | cons d dropped ih =>
    obtain ⟨hok, hnext⟩ := unpin_willing d.1 (s.proc d.1) h
    have hhead : GivesBack s (dropProcess T s d) t := dropProcess_givesBack
    by_cases hd : t = d.1
    · subst hd
      have hmask := unpinChild_affinity hpin hok
      have hrest : GivesBack (dropProcess T s d) (dropped.foldl (dropProcess T) (dropProcess T s d))
          d.1 := foldl_dropProcess_givesBack
      exact (hrest.eq_profiler (hmask.trans hhead.profiler.symm)).trans hhead.profiler
    · rw [List.map_cons, List.mem_cons] at ht
      have hpin' : ((dropProcess T s d).proc t).pinned = true := by
        rwa [(dropProcess_sameThread hd).proc]
      exact (ih hnext hpin' (ht.resolve_left hd)).trans hhead.profiler

/-- **The affinities are given back**, if `unpin_all_threads` succeeds on the thread or if the
calls at the end are granted. -/
theorem KnownMask.restored {allChildren : List Pid} {dropped : List (Pid × ProcInfo R)}
    (hs : KnownMask T g original ours s t)
    (hcalls : (s.proc t).pinned = true →
      t ∈ allChildren ∧ (unpinAllThreads allChildren s).1 = true ∨
        t ∈ dropped.map Prod.fst ∧ s.kernel.Willing) :
    (endSystem T allChildren dropped s).kernel.affinity t =
      if (s.proc t).pinned then ours else original := by
  have hunpin : GivesBack s (unpinAllThreads allChildren s).2 t := unpinAllThreads_givesBack
  have hdrop : GivesBack (unpinAllThreads allChildren s).2 (endSystem T allChildren dropped s) t :=
    foldl_dropProcess_givesBack
  cases hpin : (s.proc t).pinned with
  | false =>
    have hsame := (hunpin.trans hdrop).affinity.resolve_right fun h => by simp [hpin] at h
    exact hsame.trans (hs.free hpin)
  | true =>
    rw [if_pos rfl, ← hs.profiler]
    obtain ⟨ht, hok⟩ | ⟨ht, hwilling⟩ := hcalls hpin
    · have hmask := unpinAllThreads_affinity hpin ht hok
      exact (hdrop.eq_profiler (hmask.trans hunpin.profiler.symm)).trans hunpin.profiler
    · -- the record is still pinned when the process is destructed
      have hpin' : ((unpinAllThreads allChildren s).2.proc t).pinned = true := by
        rw [unpinAllThreads_proc, hpin]
      exact (foldl_dropProcess_affinity (unpinAllThreads_willing hwilling) hpin' ht).trans
        hunpin.profiler

end System

/-! ### The daemon -/

namespace Daemon

variable {R : Type} [RealT R] (T : Topology) (g : Granularity) (self child : Pid)

/-- The end of the daemon: the success of `unpin_all_threads`, and the maps after the processes
have been destructed, those that `erase_invalid` erases among them. -/
def exit (order : ChildOrder) (visit : List Pid) (dropped : List (Pid × ProcInfo R))
    (d : Daemon R) : Option (Bool × System R) :=
  (d.tree.allChildren order d.system.root).bind fun children =>
    (d.tree.eraseInvalid order visit).map fun _ =>
      ((System.unpinAllThreads children d.system).1, d.system.endSystem T children dropped)

/-- The states that are reached from `d₀` by operations after which the thread is in the tree. -/
inductive KeptFrom (t : Pid) (d₀ : Daemon R) : Daemon R → Prop
  | refl : KeptFrom t d₀ d₀
  | step {d d' : Daemon R} {op : DaemonOp R} (h : KeptFrom t d₀ d) (hop : Allowed child d op)
    (hstep : step T g self child d op = some d') (hmem : (d'.tree.processes t).isSome = true) :
    KeptFrom t d₀ d'

variable {T g self child} {d₀ d d' : Daemon R} {t : Pid} {original ours : CpuSet}

/-- An update leaves no invalid process, and the other operations leave the tree alone. -/
theorem Live.tree_step (h : Live T g child d) {op : DaemonOp R} (hop : Allowed child d op)
    (hstep : Daemon.step T g self child d op = some d') :
    d'.tree.Invalid = ∅ ∨ d'.tree = d.tree := by
  match op with
  | .update view stats infos =>
    obtain ⟨update, heq, hupdate⟩ :=
      ProcessTree.updateThreads_spec self view h.consistent h.rooted h.child_mem hop
    rw [Daemon.step, heq, Option.map_some, Option.some_inj] at hstep
    subst hstep
    refine .inl (Set.eq_empty_iff_forall_notMem.mpr fun q hq => ?_)
    obtain ⟨p, hp, hinvalid⟩ := hq
    rw [hupdate.valid q p hp] at hinvalid
    cases hinvalid
  | .addPids fs order =>
    obtain ⟨children, heq, -⟩ :=
      ProcessTree.getChildren_spec self fs order h.consistent h.child_mem
    rw [Daemon.step, heq, Option.map_some, Option.some_inj] at hstep
    subst hstep
    exact .inr rfl
  | .addRows tids =>
    obtain rfl := Option.some.inj hstep
    exact .inr rfl
  | .checkAliveTids =>
    obtain rfl := Option.some.inj hstep
    exact .inr rfl
  | .pinThreads ignoreIdle order =>
    obtain ⟨children, -, rfl⟩ := Option.map_eq_some_iff.mp hstep
    exact .inr rfl
  | .setTid fs tid dst =>
    rw [Daemon.step] at hstep
    split_ifs at hstep with hzero
    · obtain rfl := Option.some.inj hstep
      exact .inr rfl
    · rw [ProcessTree.retrieve_of_isSome self fs (h.isSome_of_known hop), Option.map_some,
        Option.some_inj] at hstep
      subst hstep
      exact .inr rfl

/-- No process is invalid, but for the child process if it could not be read at the start. It is
alone then until the first update. -/
theorem invalid_of_reachable {fs : ProcFs} {infos : Pid → ProcInfo R} {kernel : Kernel}
    (h : Reachable T g self child fs infos kernel d) :
    d.tree.Invalid = ∅ ∨ fs.stat child = none ∧ d.tree = .new fs child := by
  induction h with
  | start =>
    cases hstat : fs.stat child with
    | none => exact .inr ⟨rfl, rfl⟩
    | some ppid =>
      refine .inl (Set.eq_empty_iff_forall_notMem.mpr fun q hq => ?_)
      obtain ⟨p, hp, hinvalid⟩ := hq
      by_cases hq : q = child
      · subst hq
        obtain rfl : ProcessNode.new fs q none = p := by
          simpa [start, ProcessTree.new] using hp
        simp [ProcessNode.new, hstat] at hinvalid
      · simp [start, ProcessTree.new, ProcessTree.put_processes_of_ne hq, ProcessTree.empty] at hp
  | step h hop hstep ih =>
    obtain hnone | hsame := (live_of_reachable h).tree_step hop hstep
    · exact .inl hnone
    · rwa [hsame]

/-- `erase_invalid` has a result in every state that is reached. -/
theorem eraseInvalid_of_reachable {fs : ProcFs} {infos : Pid → ProcInfo R} {kernel : Kernel}
    (h : Reachable T g self child fs infos kernel d) (order : ChildOrder) {visit : List Pid}
    (hvisit : visit.Perm d.tree.pids.toList) :
    ∃ r, d.tree.eraseInvalid order visit = some r := by
  have hconsistent := (live_of_reachable h).consistent
  have hfirst : d.tree.ChildrenFirst := by
    intro pid hpid q hlink
    obtain hnone | ⟨-, hnew⟩ := invalid_of_reachable h
    · rw [hnone] at hpid
      exact absurd hpid (Set.notMem_empty pid)
    · -- a tree of one process has no links
      obtain ⟨p, hp, hparent⟩ := ProcessTree.link_parentOf_iff.mp hlink
      rw [hnew, ProcessTree.new] at hp
      by_cases hq : q = child
      · subst hq
        rw [ProcessTree.put_processes_self, Option.some_inj] at hp
        subst hp
        cases hparent
      · simp [ProcessTree.put_processes_of_ne hq, ProcessTree.empty] at hp
  obtain ⟨deleted, t', heq, -⟩ :=
    ProcessTree.eraseInvalid_of_childrenFirst order hconsistent hvisit hfirst
  exact ⟨_, heq⟩

/-- An operation that leaves the thread in the tree does not drop it. -/
theorem Live.keeps (h : Live T g child d) {op : DaemonOp R} (hop : Allowed child d op)
    (hstep : Daemon.step T g self child d op = some d')
    (hmem : (d'.tree.processes t).isSome = true) :
    Runs (System.perform T g) (Op.Keeps t) d.system d'.system := by
  match op with
  | .update view stats infos =>
    obtain ⟨update, heq, hupdate⟩ :=
      ProcessTree.updateThreads_spec self view h.consistent h.rooted h.child_mem hop
    rw [Daemon.step, heq, Option.map_some, Option.some_inj] at hstep
    subst hstep
    have hkept : t ∉ (erasedBy update infos).map Prod.fst := fun ht => by
      simp [(mem_erasedBy.mp ht).2] at hmem
    rw [updateSystem_eq hupdate h.unlisted]
    -- an update refreshes processes, and removes others
    refine Runs.trans (.run fun pid _ _ => ?_) (.single (Op.Keeps.remove hkept))
    exact .single (Op.Keeps.refresh pid (stats pid))
  | .addPids fs order =>
    obtain ⟨⟨children, tree⟩, -, rfl⟩ := Option.map_eq_some_iff.mp hstep
    exact .refl _
  | .addRows tids =>
    obtain rfl := Option.some.inj hstep
    exact .refl _
  | .checkAliveTids =>
    obtain rfl := Option.some.inj hstep
    exact .refl _
  | .pinThreads ignoreIdle order =>
    obtain ⟨children, -, rfl⟩ := Option.map_eq_some_iff.mp hstep
    exact System.keeps_pinThreads
  | .setTid fs tid dst =>
    rw [Daemon.step] at hstep
    split_ifs at hstep with hzero
    · obtain rfl := Option.some.inj hstep
      exact .refl _
    · obtain ⟨tree, -, rfl⟩ := Option.map_eq_some_iff.mp hstep
      exact .single (Op.Keeps.migrate tid dst)

theorem Reachable.keptFrom {fs : ProcFs} {infos : Pid → ProcInfo R} {kernel : Kernel}
    (h : Reachable T g self child fs infos kernel d₀) (hkept : KeptFrom T g self child t d₀ d) :
    Reachable T g self child fs infos kernel d := by
  induction hkept with
  | refl => exact h
  | step _ hop hstep _ ih => exact .step ih hop hstep

/-- The places agree, and the mask of the thread is known. -/
theorem knownMask_of_keptFrom (h : KeptFrom T g self child t d₀ d) (hlive : Live T g child d₀)
    (hs : d₀.system.KnownMask T g original ours t) :
    Live T g child d ∧ d.system.KnownMask T g original ours t := by
  induction h with
  | refl => exact ⟨hlive, hs⟩
  | step _ hop hstep hmem ih =>
    obtain ⟨hlive', hs'⟩ := ih
    obtain ⟨d', heq, hnext⟩ := hlive'.step self hop
    obtain rfl := Option.some.inj (heq.symm.trans hstep)
    exact ⟨hnext, hs'.of_runs (hlive'.keeps hop hstep hmem)⟩

/-- **Affinities.** As long as a thread that was found unpinned is kept, its mask is the one it was
found with if it is still unpinned, and else that of the profiler or the one it is recorded with.
The daemon ends in every state that is reached, and if `unpin_all_threads` succeeds and the thread
is not the child process itself, or if all calls at the end are granted, then a pinned thread is
left with the mask of the profiler and every other one with the mask it was found with. -/
theorem restored_of_reachable {fs : ProcFs} {infos : Pid → ProcInfo R} {kernel : Kernel}
    (h : Reachable T g self child fs infos kernel d₀)
    (hfree : (d₀.system.proc t).pinned = false) (hkept : KeptFrom T g self child t d₀ d)
    (order : ChildOrder) {visit : List Pid} (hvisit : visit.Perm d.tree.pids.toList)
    (dropped : List (Pid × ProcInfo R))
    (hdropped : ∀ q, (d.tree.processes q).isSome = true → q ∈ dropped.map Prod.fst) :
    d.system.KnownMask T g (d₀.system.kernel.affinity t) d₀.system.kernel.profilerAffinity t ∧
      ∃ ok s, exit T order visit dropped d = some (ok, s) ∧
        (ok = true ∧ t ≠ child ∨ d.system.kernel.Willing →
          s.kernel.affinity t = if (d.system.proc t).pinned
            then d₀.system.kernel.profilerAffinity else d₀.system.kernel.affinity t) := by
  have hfound : d₀.system.KnownMask T g (d₀.system.kernel.affinity t)
      d₀.system.kernel.profilerAffinity t :=
    ⟨rfl, fun _ => rfl, fun hpin => absurd hpin (by simp [hfree])⟩
  obtain ⟨hlive, hknown⟩ := knownMask_of_keptFrom hkept (live_of_reachable h) hfound
  have hroot : (d.tree.processes d.system.root).isSome = true := by
    rw [hlive.root_eq]
    exact hlive.child_mem
  obtain ⟨children, heq, -, hmem⟩ := ProcessTree.allChildren_spec order hlive.consistent hroot
  obtain ⟨erased, herased⟩ := eraseInvalid_of_reachable (h.keptFrom hkept) order hvisit
  refine ⟨hknown, _, _, by rw [exit, heq, Option.bind_some, herased, Option.map_some],
    fun hcalls => ?_⟩
  refine hknown.restored fun hpin => ?_
  -- a pinned thread is in the tree
  have htree : (d.tree.processes t).isSome = true := by
    by_contra hnot
    have hunpinned := (hlive.unlisted t (Bool.eq_false_iff.mpr hnot)).pinned
    simp [hpin] at hunpinned
  obtain ⟨hok, hne⟩ | hwilling := hcalls
  · refine .inl ⟨(hmem t).mpr ?_, hok⟩
    rw [hlive.root_eq]
    exact hlive.rooted.descends htree hne
  · exact .inr ⟨hdropped t htree, hwilling⟩

/-- A machine of two CPUs, of which the threads were given both. -/
def twoCpus : Topology := .regular 1 2 Nat.one_pos Nat.two_pos

def bothGiven : Kernel := ⟨fun _ => true, 0, fun _ => {0, 1}, {0, 1}⟩

/-- The first update, and the one after which the threads are pinned. -/
def foundThreads : Option (Daemon ℚ) :=
  step twoCpus .cpu 1 10 (start twoCpus 10 ProcessTree.twoThreads.toProcFs runningInfo bothGiven)
    (.update elevenEnded (fun _ => ⟨'S', 1, 0, 0⟩) runningInfo)

def pinnedThreads (d : Daemon ℚ) : Option (Daemon ℚ) :=
  step twoCpus .cpu 1 10 d (.pinThreads false ProcessTree.ascending)

/-- The thread 15 is pinned to the CPU 0, and is given both CPUs back. -/
theorem restored_of_reachable_elevenEnded : ∃ d s,
    foundThreads.bind pinnedThreads = some d ∧ d.system.kernel.affinity 15 = {0} ∧
      exit twoCpus ProcessTree.ascending [15, 10] [(10, runningInfo 10), (15, runningInfo 15)] d =
        some (true, s) ∧ s.kernel.affinity 15 = {0, 1} := by
  have hrun : (foundThreads.bind pinnedThreads).map (fun d => (d.tree.pids.toList,
      d.system.kernel.affinity 15, (d.system.proc 15).pinned)) = some ([10, 15], {0}, true) := by
    decide
  obtain ⟨d, hd, hrun⟩ := Option.map_eq_some_iff.mp hrun
  obtain ⟨d₁, hfound, hpinned⟩ := Option.bind_eq_some_iff.mp hd
  simp only [Prod.mk.injEq] at hrun
  obtain ⟨hpids, hmask, hpin⟩ := hrun
  have hmem : ∀ q, (d.tree.processes q).isSome = true ↔ q ∈ [10, 15] := fun q => by
    rw [← d.tree.mem_pids, OrderedSet.mem_def, hpids]
  have hfoundMem : (d₁.tree.processes 15).isSome = true := by
    obtain ⟨children, -, rfl⟩ := Option.map_eq_some_iff.mp hpinned
    exact (hmem 15).mpr (by decide)
  have hkept : KeptFrom twoCpus .cpu 1 10 15 (start twoCpus 10 _ runningInfo bothGiven) d :=
    .step (.step .refl (by exact rfl) hfound hfoundMem) (by exact trivial) hpinned
      ((hmem 15).mpr (by decide))
  have hvisit : [15, 10].Perm d.tree.pids.toList := hpids ▸ List.Perm.swap 10 15 []
  obtain ⟨-, ok, s, hexit, hcalls⟩ := restored_of_reachable .start rfl hkept ProcessTree.ascending
    hvisit [(10, runningInfo 10), (15, runningInfo 15)] fun q hq => (hmem q).mp hq
  have hok : ((foundThreads.bind pinnedThreads).bind fun d =>
      (exit twoCpus ProcessTree.ascending [15, 10] [(10, runningInfo 10), (15, runningInfo 15)]
        d).map Prod.fst) = some true := by
    decide
  rw [hd, Option.bind_some, hexit, Option.map_some, Option.some_inj] at hok
  refine ⟨d, s, hd, hmask, hok ▸ hexit, ?_⟩
  rw [hcalls (.inl ⟨hok, by decide⟩), hpin]
  rfl

end Daemon

end Thanos
