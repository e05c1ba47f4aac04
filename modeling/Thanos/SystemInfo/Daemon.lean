import Thanos.SystemInfo.ProcScan
import Thanos.SystemInfo.ThreadRuns

/-!
# The threads that the daemon keeps

The main loop updates the tree of processes, reads samples, pins threads and moves them, in
whatever order its timers ask for it. The threads are named in four places: the tree, the maps
from CPUs and nodes to threads, the performance table, and the filter of the samples.

* **Updates** (`updateThreads_spec`, `update_of_reachable`): an update ends, and returns the
  threads that were known and are lost.
* **Agreement** (`Live.step`, `listed_live`): the threads in the maps and in the table are in the
  tree, below the child process, in every state that is reached.
-/

namespace Thanos

/-- What `/proc` shows while the processes are updated. -/
structure UpdateView where
  /-- While children are searched. -/
  scanned : KernelTasks
  files : FileSystem
  mounts : Mounts files scanned
  /-- While the processes are read. -/
  read : ProcFs
  order : ChildOrder

/-- The outcome of `update` for the tree. -/
structure TreeUpdate where
  /-- The tree after the scan. -/
  scanned : ProcessTree
  /-- The tree at the end. -/
  tree : ProcessTree
  /-- `threads_to_remove`. -/
  threadsToRemove : OrderedSet Pid

namespace ProcessTree

/-- `update`, as far as the tree is concerned, with `update_tree` in the middle. -/
def updateThreads (self : Pid) (view : UpdateView) (child : Pid) (t : ProcessTree) :
    Option TreeUpdate :=
  let fs := view.scanned.toProcFs
  (t.getChildren self fs view.order child).bind fun (lastChildren, t) =>
    (t.retrieve self fs child).bind fun t =>
      (scanDir self fs view.files (fs.pids.size + 2) (taskDir child) (some child) t).bind
        fun scanned =>
          (scanned.update view.read view.order).bind fun (_, t) =>
            (t.getChildren self view.read view.order child).map fun (children, t) =>
              ⟨scanned, t, lastChildren.filter fun pid => !decide (pid ∈ children)⟩

end ProcessTree

/-- The tree, the maps, the performance table, and the filter. -/
structure Daemon (R : Type) where
  tree : ProcessTree
  system : System R
  /-- The threads of `thread::perf_table`. -/
  tids : OrderedSet Pid
  /-- `PIDs_to_filter`. -/
  filter : OrderedSet Pid
  /-- The filter has been updated since the tree has. -/
  filtered : Bool

/-- What the main loop does to the threads. -/
inductive DaemonOp (R : Type)
  /-- `system_info::update` and `migration::remove_invalid_pids`, given what is read of the
  processes, and what would be read of those that are erased. -/
  | update (view : UpdateView) (stats : Pid → Stat R) (infos : Pid → ProcInfo R)
  /-- `migration::add_pids` and `samples::update_PIDs_to_filter`, for the child process and its
  children. -/
  | addPids (fs : ProcFs) (order : ChildOrder)
  /-- Rows of the performance table are made for the threads of samples, or where a row is looked
  up. -/
  | addRows (tids : List Pid)
  /-- `check_alive_tids`. -/
  | checkAliveTids
  /-- `pin_threads_cpu` or `pin_threads_node`. -/
  | pinThreads (ignoreIdle : Bool) (order : ChildOrder)
  /-- `set_tid_cpu` or `set_tid_node`. -/
  | setTid (fs : ProcFs) (tid : Pid) (dst : ℕ)

namespace Daemon

variable {R : Type} [RealT R] (T : Topology) (g : Granularity) (self child : Pid)

/-- The maps after an update. -/
def updateSystem (update : TreeUpdate) (view : UpdateView) (stats : Pid → Stat R)
    (infos : Pid → ProcInfo R) (s : System R) : System R :=
  let readable := update.scanned.pids.filter fun pid => (view.read.stat pid).isSome
  let erased := update.scanned.pids.filter fun pid => !decide (pid ∈ update.tree.pids)
  let s := readable.toList.foldl (fun s pid => s.refresh T pid (stats pid)) s
  let s := (erased.toList.map fun pid => (pid, infos pid)).foldl (System.dropProcess T) s
  s.removeInvalidData update.threadsToRemove.toList

/-- An operation is performed. -/
def step (d : Daemon R) : DaemonOp R → Option (Daemon R)
  | .update view stats infos =>
    (d.tree.updateThreads self view child).map fun update =>
      { d with
        tree := update.tree
        system := updateSystem T update view stats infos d.system
        tids := d.tids.filter fun tid => !decide (tid ∈ update.threadsToRemove)
        filtered := false }
  | .addPids fs order =>
    (d.tree.getChildren self fs order child).map fun (children, tree) =>
      let children := insert child children
      { d with
        tree := tree
        tids := d.tids.insertMany children.toList
        filter := children
        filtered := true }
  | .addRows tids => some { d with tids := d.tids.insertMany tids }
  | .checkAliveTids =>
    some { d with tids := d.tids.filter fun tid => (d.tree.processes tid).any (·.valid) }
  | .pinThreads ignoreIdle order =>
    (d.tree.allChildren order d.system.root).map fun children =>
      { d with system := (d.system.pinThreads T ignoreIdle children g).2 }
  | .setTid fs tid dst =>
    if tid = 0 then some d
    else
      (d.tree.retrieve self fs tid).map fun tree =>
        { d with
          tree := tree
          system := (System.pinThread T g tid dst d.system).2 }

/-- The daemon after the child process has been created. Its tree has the child only; the scan
of `start_tree` is an update of it. -/
def start (fs : ProcFs) (infos : Pid → ProcInfo R) (kernel : Kernel) : Daemon R where
  tree := .new fs child
  system := .boot T child infos kernel
  tids := ∅
  filter := insert child ∅
  filtered := true

/-- The thread has a row in the performance table, or is listed. -/
def Known (d : Daemon R) (tid : Pid) : Prop :=
  tid ∈ d.tids ∨ d.system.Listed tid

/-- The child process is alive when the processes are read, a row is for a thread that passes the
filter or is known, and a thread that is moved is known. -/
def Allowed (d : Daemon R) : DaemonOp R → Prop
  | .update view _ _ => (view.read.stat child).isSome = true
  | .addRows tids => ∀ tid ∈ tids, d.filtered = true ∧ tid ∈ d.filter ∨ Known d tid
  | .setTid _ tid _ => Known d tid
  | .addPids _ _ | .checkAliveTids | .pinThreads _ _ => True

/-- The states that are reached by operations in whatever order. -/
inductive Reachable (fs : ProcFs) (infos : Pid → ProcInfo R) (kernel : Kernel) : Daemon R → Prop
  | start : Reachable fs infos kernel (start T child fs infos kernel)
  | step {d d' : Daemon R} {op : DaemonOp R} (h : Reachable fs infos kernel d)
    (hop : Allowed child d op) (hstep : step T g self child d op = some d') :
    Reachable fs infos kernel d'

end Daemon

/-! ### The tree -/

namespace ProcessTree

variable {t : ProcessTree} {self child q : Pid} {view : UpdateView}

/-- What `update` does to a tree. -/
structure UpdatesTo (view : UpdateView) (child : Pid) (t : ProcessTree) (update : TreeUpdate) :
    Prop where
  scanned : Extends t {q | view.scanned.Finds child q} update.scanned
  consistent : update.tree.Consistent
  rooted : update.tree.Rooted child
  child_mem : (update.tree.processes child).isSome = true
  /-- A process is kept if it can be read, and so can its ancestors. -/
  isSome_iff : ∀ q, (update.tree.processes q).isSome = true ↔
    (update.scanned.processes q).isSome = true ∧
      ∀ root, view.read.stat root = none → ¬ Below update.scanned.parentOf root q
  /-- What has been read is valid. -/
  valid : ∀ q p, update.tree.processes q = some p → p.valid = true
  /-- The threads that are removed are those that are lost. -/
  mem_threadsToRemove : ∀ q, q ∈ update.threadsToRemove ↔
    (t.processes q).isSome = true ∧ (update.tree.processes q).isSome = false

/-- The processes that cannot be read are erased with their descendants. -/
theorem isSome_update_iff (fs : ProcFs) (h : t.Consistent) :
    (((t.refresh fs).restrict ((t.refresh fs).outside (t.procsToErase fs).toList)).processes
      q).isSome = true ↔ (t.processes q).isSome = true ∧
        ∀ root, fs.stat root = none → ¬ Below t.parentOf root q := by
  have hsame : (t.refresh fs).parentOf = t.parentOf := funext fun q => parentOf_refresh fs
  have hmem : q ∈ (t.refresh fs).outside (t.procsToErase fs).toList ↔
      ∀ root, root ∈ t.procsToErase fs → ¬ Below t.parentOf root q := by
    rw [mem_outside, hsame]
    rfl
  rw [isSome_restrict, hmem, refresh_processes, Option.isSome_map]
  refine and_congr_right fun hq => forall_congr' fun root => ⟨fun h' hroot hbelow => ?_, ?_⟩
  · -- an ancestor of a process is in the tree
    refine h' ?_ hbelow
    rw [procsToErase, OrderedSet.mem_filter, t.mem_pids, hroot]
    exact ⟨h.isSome_of_below hbelow hq, rfl⟩
  · intro h' hroot
    rw [procsToErase, OrderedSet.mem_filter] at hroot
    exact h' (Option.isNone_iff_eq_none.mp hroot.2)

/-- The root of a tree has no other ancestors. -/
theorem Rooted.eq_of_below_root {root : Pid} (h : t.Consistent) (hroot : t.Rooted root)
    (hbelow : Below t.parentOf q root) (hmem : (t.processes root).isSome = true) : q = root := by
  have hq := hroot q (h.isSome_of_below hbelow hmem)
  obtain heq | hdescends := below_iff_descends.mp hq
  · exact heq
  · exact absurd (Relation.TransGen.trans_left hdescends hbelow) (h.acyclic root)

/-- A process that has been read is valid. -/
theorem valid_of_refresh {fs : ProcFs} {keep : Set Pid} {p : ProcessNode}
    (hp : ((t.refresh fs).restrict keep).processes q = some p) (hread : fs.stat q ≠ none) :
    p.valid = true := by
  obtain ⟨-, p₁, hp₁, rfl⟩ := exists_of_restrict hp
  rw [refresh_processes] at hp₁
  obtain ⟨p₀, -, rfl⟩ := Option.map_eq_some_iff.mp hp₁
  obtain ⟨ppid, hppid⟩ := Option.ne_none_iff_exists'.mp hread
  simp [ProcessNode.restrict, ProcessNode.update, hppid]

/-- **Updates.** As long as the child process is alive, an update of its tree ends, and what it
returns are the processes that were in the tree before and are not in it any more. -/
theorem updateThreads_spec (self : Pid) (view : UpdateView) (h : t.Consistent)
    (hroot : t.Rooted child) (hmem : (t.processes child).isSome = true)
    (halive : (view.read.stat child).isSome = true) :
    ∃ update, t.updateThreads self view child = some update ∧
      UpdatesTo view child t update := by
  obtain ⟨lastChildren, hlast, hmemlast⟩ :=
    getChildren_spec self view.scanned.toProcFs view.order h hmem
  obtain ⟨t₁, hscan, h₁⟩ := scanDir_spec self view.mounts h hmem (k := view.scanned)
    (Nat.add_le_add_right numDescendants_le 2)
  -- the scan only adds processes, and the update of the tree erases those that cannot be read
  have hmem₁ : (t₁.processes child).isSome = true := h₁.isSome hmem
  have hroot₁ : t₁.Rooted child := h₁.rooted child hroot
  have hupdate := update_eq view.read view.order h₁.consistent
  set t₂ := (t₁.refresh view.read).restrict
    ((t₁.refresh view.read).outside (t₁.procsToErase view.read).toList) with ht₂
  have hkept : ∀ q, (t₂.processes q).isSome = true ↔ (t₁.processes q).isSome = true ∧
      ∀ root, view.read.stat root = none → ¬ Below t₁.parentOf root q :=
    fun q => isSome_update_iff view.read h₁.consistent
  have hconsistent : t₂.Consistent := (h₁.consistent.refresh view.read).restrict closedUp_outside
  have hroot₂ : t₂.Rooted child := (hroot₁.refresh view.read).restrict closedUp_outside
  have hmem₂ : (t₂.processes child).isSome = true := by
    refine (hkept child).mpr ⟨hmem₁, fun root hunreadable hbelow => ?_⟩
    -- the child process has no ancestors in its tree, and it can be read itself
    obtain rfl := hroot₁.eq_of_below_root h₁.consistent hbelow hmem₁
    simp [hunreadable] at halive
  obtain ⟨children, hchildren, hmemchildren⟩ :=
    getChildren_spec self view.read view.order hconsistent hmem₂
  refine ⟨⟨t₁, t₂, lastChildren.filter fun pid => !decide (pid ∈ children)⟩, ?_, h₁,
    hconsistent, hroot₂, hmem₂, hkept, fun q p hp => ?_, fun q => ?_⟩
  · rw [updateThreads, hlast, Option.bind_some]
    have hsize : view.scanned.pids.toFinset.card = view.scanned.pids.size :=
      OrderedSet.card_toFinset
    rw [hsize] at hscan
    simp only [retrieve_of_isSome self _ hmem, hscan, Option.bind_some, hupdate, hchildren,
      Option.map_some]
  · -- a process that is kept has been read
    have hread : view.read.stat q ≠ none := fun hnone =>
      ((hkept q).mp (by rw [hp, Option.isSome_some])).2 q hnone Relation.ReflTransGen.refl
    exact valid_of_refresh hp hread
  · -- `get_children` lists descendants: the child process itself is never removed
    rw [OrderedSet.mem_filter, hmemlast, Bool.not_eq_true', decide_eq_false_iff_not, hmemchildren]
    constructor
    · rintro ⟨hdescends, hlost⟩
      refine ⟨isSome_of_descends hdescends, ?_⟩
      by_contra hsome
      rw [Bool.not_eq_false] at hsome
      obtain rfl | hdescends' := below_iff_descends.mp (hroot₂ q hsome)
      · exact h.acyclic q hdescends
      · exact hlost hdescends'
    · rintro ⟨hq, hlost⟩
      have hne : q ≠ child := by
        rintro rfl
        rw [hmem₂] at hlost
        cases hlost
      refine ⟨hroot.descends hq hne, fun hdescends => ?_⟩
      rw [isSome_of_descends hdescends] at hlost
      cases hlost

end ProcessTree

/-! ### The maps -/

namespace System

variable {R : Type} {T : Topology} {g : Granularity} {s s' s'' : System R} {pids pids' : List Pid}
  {t : Pid}

theorem foldl_dropProcess_maps {dropped : List (Pid × ProcInfo R)} :
    (dropped.foldl (dropProcess T) s).cpuTidMap = s.cpuTidMap ∧
      (dropped.foldl (dropProcess T) s).nodeTidMap = s.nodeTidMap := by
  induction dropped generalizing s with
  | nil => exact ⟨rfl, rfl⟩
  | cons d dropped ih => exact ih

/-- A thread that is neither pinned nor listed. -/
structure Unlisted (s : System R) (t : Pid) : Prop where
  pinned : (s.proc t).pinned = false
  cpu : ∀ c, t ∉ s.cpuTidMap c
  node : ∀ n, t ∉ s.nodeTidMap n

theorem Unlisted.of_sameThread (h : Unlisted s t) (hsame : SameThread s s' t) : Unlisted s' t where
  pinned := by rw [hsame.proc, h.pinned]
  cpu c hc := h.cpu c ((hsame.cpu c).mp hc)
  node n hn := h.node n ((hsame.node n).mp hn)

/-- The threads that are not listed make no difference to what is purged. -/
theorem removeInvalidData_eq (hsub : ∀ t ∈ pids, t ∈ pids')
    (hcpu : ∀ t ∈ pids', t ∉ pids → ∀ c, t ∉ s.cpuTidMap c)
    (hnode : ∀ t ∈ pids', t ∉ pids → ∀ n, t ∉ s.nodeTidMap n) :
    s.removeInvalidData pids = s.removeInvalidData pids' := by
  have hcpus : (s.removeInvalidData pids).cpuTidMap = (s.removeInvalidData pids').cpuTidMap := by
    refine funext fun c => OrderedSet.ext_mem fun t => ?_
    rw [mem_removeInvalidData.1, mem_removeInvalidData.1]
    refine and_congr_right fun hc => ⟨fun ht ht' => hcpu t ht' ht c hc, mt (hsub t)⟩
  have hnodes :
      (s.removeInvalidData pids).nodeTidMap = (s.removeInvalidData pids').nodeTidMap := by
    refine funext fun n => OrderedSet.ext_mem fun t => ?_
    rw [mem_removeInvalidData.2, mem_removeInvalidData.2]
    refine and_congr_right fun hn => ⟨fun ht ht' => hnode t ht' ht n hn, mt (hsub t)⟩
  have hroot : (s.removeInvalidData pids).root = (s.removeInvalidData pids').root :=
    removeInvalidData_root.trans removeInvalidData_root.symm
  have hproc : (s.removeInvalidData pids).proc = (s.removeInvalidData pids').proc :=
    removeInvalidData_proc.1.trans removeInvalidData_proc.1.symm
  have hkernel : (s.removeInvalidData pids).kernel = (s.removeInvalidData pids').kernel :=
    removeInvalidData_proc.2.trans removeInvalidData_proc.2.symm
  cases hs : s.removeInvalidData pids
  cases hs' : s.removeInvalidData pids'
  simp_all

end System

/-! ### Reachable states -/

namespace Daemon

variable {R : Type} {T : Topology} {g : Granularity} {self child : Pid}
  {d d' : Daemon R}

/-- The four places agree. -/
structure Live (T : Topology) (g : Granularity) (child : Pid) (d : Daemon R) : Prop where
  consistent : d.tree.Consistent
  rooted : d.tree.Rooted child
  child_mem : (d.tree.processes child).isSome = true
  root_eq : d.system.root = child
  unlisted : ∀ t, (d.tree.processes t).isSome = false → d.system.Unlisted t
  tids_mem : ∀ t ∈ d.tids, (d.tree.processes t).isSome = true
  filter_mem : d.filtered = true → ∀ t ∈ d.filter, (d.tree.processes t).isSome = true
  coherent : ∀ t, Coherent T d.system t g

/-- What is erased from the tree by an update. -/
def erasedBy (update : TreeUpdate) (infos : Pid → ProcInfo R) : List (Pid × ProcInfo R) :=
  (update.scanned.pids.filter fun pid => !decide (pid ∈ update.tree.pids)).toList.map
    fun pid => (pid, infos pid)

theorem mem_erasedBy {update : TreeUpdate} {infos : Pid → ProcInfo R} {q : Pid} :
    q ∈ (erasedBy update infos).map Prod.fst ↔
      (update.scanned.processes q).isSome = true ∧ (update.tree.processes q).isSome = false := by
  rw [erasedBy, List.map_map]
  simp only [Function.comp_def, List.map_id', ← OrderedSet.mem_def, OrderedSet.mem_filter,
    ProcessTree.mem_pids, Bool.not_eq_true', decide_eq_false_iff_not, Bool.not_eq_true]

theorem foldl_refresh_maps {stats : Pid → Stat R} {pids : List Pid} {s : System R} :
    (pids.foldl (fun s pid => s.refresh T pid (stats pid)) s).cpuTidMap = s.cpuTidMap ∧
      (pids.foldl (fun s pid => s.refresh T pid (stats pid)) s).nodeTidMap = s.nodeTidMap := by
  induction pids generalizing s with
  | nil => exact ⟨rfl, rfl⟩
  | cons pid pids ih => exact ih

/-- An update of the maps refreshes the processes that can be read, and removes those that are
erased: of them, the ones that are not purged have not been listed. -/
theorem updateSystem_eq {view : UpdateView} {t : ProcessTree} {update : TreeUpdate}
    {s : System R} (h : t.UpdatesTo view child update)
    (hunlisted : ∀ q, (t.processes q).isSome = false → s.Unlisted q)
    (stats : Pid → Stat R) (infos : Pid → ProcInfo R) :
    updateSystem T update view stats infos s = ((update.scanned.pids.filter fun pid =>
      (view.read.stat pid).isSome).toList.foldl (fun s pid => s.refresh T pid (stats pid)) s).remove
        T (erasedBy update infos) := by
  have hpids : ∀ q, q ∈ (erasedBy update infos).map Prod.fst → q ∉ update.threadsToRemove.toList →
      s.Unlisted q := by
    intro q hq hnot
    rw [mem_erasedBy] at hq
    refine hunlisted q ?_
    by_contra hsome
    rw [Bool.not_eq_false] at hsome
    -- a process that is erased, but was not known before, has been found by this scan
    exact hnot ((h.mem_threadsToRemove q).mpr ⟨hsome, hq.2⟩)
  refine System.removeInvalidData_eq (fun q hq => ?_) (fun q hq hnot c => ?_) fun q hq hnot n => ?_
  · obtain ⟨hold, hlost⟩ := (h.mem_threadsToRemove q).mp hq
    exact mem_erasedBy.mpr ⟨h.scanned.isSome hold, hlost⟩
  · rw [System.foldl_dropProcess_maps.1, foldl_refresh_maps.1]
    exact (hpids q hq hnot).cpu c
  · rw [System.foldl_dropProcess_maps.2, foldl_refresh_maps.2]
    exact (hpids q hq hnot).node n

/-- An update of the maps is a run on the processes that have been scanned, and forgets those that
are erased. -/
theorem runsOn_updateSystem {view : UpdateView} {t : ProcessTree} {update : TreeUpdate}
    {s : System R} (h : t.UpdatesTo view child update)
    (hunlisted : ∀ q, (t.processes q).isSome = false → s.Unlisted q)
    (stats : Pid → Stat R) (infos : Pid → ProcInfo R) :
    System.RunsOn T g {q | (update.scanned.processes q).isSome = true} s
        (updateSystem T update view stats infos s) ∧
      ∀ q, (update.tree.processes q).isSome = false →
        (updateSystem T update view stats infos s).Unlisted q := by
  have hrefresh : System.RunsOn T g {q | (update.scanned.processes q).isSome = true} s
      ((update.scanned.pids.filter fun pid => (view.read.stat pid).isSome).toList.foldl
        (fun s pid => s.refresh T pid (stats pid)) s) := by
    refine .refresh stats fun pid hpid => ?_
    rw [← OrderedSet.mem_def, OrderedSet.mem_filter, ProcessTree.mem_pids] at hpid
    exact hpid.1
  have hrun : System.RunsOn T g {q | (update.scanned.processes q).isSome = true} s
      (updateSystem T update view stats infos s) := by
    rw [updateSystem_eq h hunlisted]
    have hremove : System.NamesOnly {q | (update.scanned.processes q).isSome = true}
        (.remove (erasedBy update infos)) := fun q hq => (mem_erasedBy.mp hq).1
    exact hrefresh.trans (.single hremove)
  refine ⟨hrun, fun q hq => ?_⟩
  by_cases hscanned : (update.scanned.processes q).isSome = true
  · rw [updateSystem_eq h hunlisted]
    obtain ⟨hpin, hcpu, hnode⟩ := System.remove_of_mem (T := T)
      (mem_erasedBy.mpr ⟨hscanned, hq⟩ : q ∈ (erasedBy update infos).map Prod.fst)
    exact ⟨hpin, hcpu, hnode⟩
  · -- a process that is not found is not in the tree either
    have hold : (t.processes q).isSome = false := by
      by_contra hsome
      exact hscanned (h.scanned.isSome (Bool.eq_true_of_not_eq_false hsome))
    exact (hunlisted q hold).of_sameThread (hrun.sameThread hscanned)

theorem live_start (fs : ProcFs) (infos : Pid → ProcInfo R) (kernel : Kernel) :
    Live T g child (start T child fs infos kernel) := by
  have hmem : ∀ q, ((ProcessTree.new fs child).processes q).isSome = true ↔ q = child := by
    intro q
    by_cases hq : q = child
    · subst hq
      simp [ProcessTree.new]
    · simp [ProcessTree.new, ProcessTree.put_processes_of_ne hq, ProcessTree.empty, hq]
  have hunlisted : ∀ t, (System.boot T child infos kernel).Unlisted t :=
    fun _ => ⟨rfl, fun _ => OrderedSet.notMem_empty, fun _ => OrderedSet.notMem_empty⟩
  refine ⟨ProcessTree.consistent_new fs child, ProcessTree.rooted_new fs child,
    (hmem child).mpr rfl, rfl, fun t _ => hunlisted t,
    fun t ht => absurd ht OrderedSet.notMem_empty, fun _ t ht => ?_, fun t => coherent_boot⟩
  obtain rfl | hnone := OrderedSet.mem_insert.mp ht
  · exact (hmem t).mpr rfl
  · exact absurd hnone OrderedSet.notMem_empty

/-- A run on threads of the tree leaves the places in agreement. -/
theorem Live.of_runsOn (h : Live T g child d) {s : System R}
    (hrun : System.RunsOn T g {q | (d.tree.processes q).isSome = true} d.system s) :
    Live T g child { d with system := s } where
  consistent := h.consistent
  rooted := h.rooted
  child_mem := h.child_mem
  root_eq := hrun.root.trans h.root_eq
  unlisted t ht := (h.unlisted t ht).of_sameThread
    (hrun.sameThread fun hmem => by simp [ht] at hmem)
  tids_mem := h.tids_mem
  filter_mem := h.filter_mem
  coherent t := (h.coherent t).of_runsOn hrun

/-- A known thread is in the tree. -/
theorem Live.isSome_of_known (h : Live T g child d) {t : Pid} (ht : Known d t) :
    (d.tree.processes t).isSome = true := by
  obtain ht | ht := ht
  · exact h.tids_mem t ht
  · by_contra hnot
    have hunlisted := h.unlisted t (Bool.eq_false_iff.mpr hnot)
    obtain ⟨c, hc⟩ | ⟨n, hn⟩ := ht
    · exact hunlisted.cpu c hc
    · exact hunlisted.node n hn

/-- **Agreement**, one step: every operation that is allowed has a result, in which the tree, the
maps, the performance table and the filter agree as before. -/
theorem Live.step [RealT R] (h : Live T g child d) (self : Pid) {op : DaemonOp R}
    (hop : Allowed child d op) :
    ∃ d', Daemon.step T g self child d op = some d' ∧ Live T g child d' := by
  match op with
  | .update view stats infos =>
    obtain ⟨update, heq, hupdate⟩ :=
      ProcessTree.updateThreads_spec self view h.consistent h.rooted h.child_mem hop
    obtain ⟨hrun, hunlisted⟩ := runsOn_updateSystem (T := T) (g := g) hupdate h.unlisted stats infos
    refine ⟨_, by rw [Daemon.step, heq, Option.map_some], hupdate.consistent, hupdate.rooted,
      hupdate.child_mem, hrun.root.trans h.root_eq, hunlisted, fun t ht => ?_,
      fun hfiltered => absurd hfiltered Bool.false_ne_true, fun t => (h.coherent t).of_runsOn hrun⟩
    -- the rows of the threads that are removed are erased with them
    rw [OrderedSet.mem_filter, Bool.not_eq_true', decide_eq_false_iff_not,
      hupdate.mem_threadsToRemove, not_and, Bool.not_eq_false] at ht
    exact ht.2 (h.tids_mem t ht.1)
  | .addPids fs order =>
    obtain ⟨children, heq, hmem⟩ :=
      ProcessTree.getChildren_spec self fs order h.consistent h.child_mem
    have hchildren : ∀ t ∈ insert child children, (d.tree.processes t).isSome = true := by
      intro t ht
      rw [OrderedSet.mem_insert, hmem] at ht
      obtain rfl | hdescends := ht
      · exact h.child_mem
      · exact ProcessTree.isSome_of_descends hdescends
    refine ⟨{ d with
        tids := d.tids.insertMany (insert child children).toList
        filter := insert child children
        filtered := true },
      by rw [Daemon.step, heq]; rfl, h.consistent, h.rooted, h.child_mem, h.root_eq, h.unlisted,
      fun t ht => ?_, fun _ => hchildren, h.coherent⟩
    rw [OrderedSet.mem_insertMany, ← OrderedSet.mem_def] at ht
    exact ht.elim (hchildren t) (h.tids_mem t)
  | .addRows tids =>
    refine ⟨_, rfl, h.consistent, h.rooted, h.child_mem, h.root_eq, h.unlisted, fun t ht => ?_,
      h.filter_mem, h.coherent⟩
    obtain ht | ht := OrderedSet.mem_insertMany.mp ht
    · obtain ⟨hfiltered, hmem⟩ | hknown := hop t ht
      · exact h.filter_mem hfiltered t hmem
      · exact h.isSome_of_known hknown
    · exact h.tids_mem t ht
  | .checkAliveTids =>
    exact ⟨_, rfl, h.consistent, h.rooted, h.child_mem, h.root_eq, h.unlisted,
      fun t ht => h.tids_mem t (OrderedSet.mem_filter.mp ht).1, h.filter_mem, h.coherent⟩
  | .pinThreads ignoreIdle order =>
    have hroot : (d.tree.processes d.system.root).isSome = true := by
      rw [h.root_eq]
      exact h.child_mem
    obtain ⟨children, heq, -, hmem⟩ := ProcessTree.allChildren_spec order h.consistent hroot
    refine ⟨_, by rw [Daemon.step, heq, Option.map_some], h.of_runsOn ?_⟩
    exact .pinThreads hroot fun pid hpid =>
      ProcessTree.isSome_of_descends ((hmem pid).mp hpid)
  | .setTid fs tid dst =>
    rw [Daemon.step]
    split_ifs with hzero
    · exact ⟨d, rfl, h⟩
    · have htid : (d.tree.processes tid).isSome = true := h.isSome_of_known hop
      rw [ProcessTree.retrieve_of_isSome self fs htid, Option.map_some]
      exact ⟨_, rfl, h.of_runsOn (.single (System.Moves.migrate dst htid).namesOnly)⟩

theorem live_of_reachable [RealT R] {fs : ProcFs} {infos : Pid → ProcInfo R} {kernel : Kernel}
    (h : Reachable T g self child fs infos kernel d) : Live T g child d := by
  induction h with
  | start => exact live_start fs infos kernel
  | step _ hop hstep ih =>
    obtain ⟨d', heq, hlive⟩ := ih.step self hop
    obtain rfl := Option.some.inj (heq.symm.trans hstep)
    exact hlive

/-- **Live threads.** In every state that is reached, whatever the affinity calls answer, a thread
that is listed or has a row in the performance table is the child process or one of its
descendants in the tree, a listed thread is listed once, where it is pinned, and no operation that
is allowed fails. -/
theorem listed_live [RealT R] {fs : ProcFs} {infos : Pid → ProcInfo R} {kernel : Kernel}
    (h : Reachable T g self child fs infos kernel d) :
    (∀ t, Known d t → t = child ∨ d.tree.Descends child t) ∧
    (∀ t, Coherent T d.system t g) ∧
    ∀ op, Allowed child d op → ∃ d', Daemon.step T g self child d op = some d' := by
  have hlive := live_of_reachable h
  refine ⟨fun t ht => ?_, hlive.coherent, fun op hop =>
    (hlive.step self hop).imp fun d' hd' => hd'.1⟩
  exact ProcessTree.below_iff_descends.mp (hlive.rooted t (hlive.isSome_of_known ht))

/-- The kernel of the examples, and what is read of their processes. -/
def quietKernel : Kernel := ⟨fun _ => true, 0, fun _ => ∅, ∅⟩

def runningInfo : Pid → ProcInfo ℚ := fun _ => ⟨none, true, false, ⟨'S', 1, 0, 0⟩⟩

/-- What `/proc` shows of the threads of `twoThreads` after the process 11 has ended. -/
def elevenEnded : UpdateView where
  scanned := ProcessTree.twoThreads
  files := ProcessTree.twoThreads.fileSystem
  mounts := mounts_fileSystem ProcessTree.twoThreads
  read :=
    { stat := fun pid => if pid = 11 then none else ProcessTree.twoThreads.stat pid
      pids := ProcessTree.twoThreads.pids
      mem_pids := fun pid parent h => by
        split_ifs at h with hpid
        exact ProcessTree.twoThreads.mem_pids pid parent h
      acyclic := ProcessTree.twoThreads.acyclic.mono fun parent pid hlink => by
        rw [Link] at hlink
        split_ifs at hlink with hpid
        exact hlink }
  order := ProcessTree.ascending

/-- The first update, after which the threads are given rows in the performance table. -/
def firstUpdate : Option (Daemon ℚ) :=
  (step (.regular 1 1 Nat.one_pos Nat.one_pos) .cpu 1 10 (start
      (.regular 1 1 Nat.one_pos Nat.one_pos) 10 ProcessTree.twoThreads.toProcFs runningInfo
        quietKernel) (.update elevenEnded (fun _ => ⟨'S', 1, 0, 0⟩) runningInfo)).bind fun d =>
    step (.regular 1 1 Nat.one_pos Nat.one_pos) .cpu 1 10 d
      (.addPids elevenEnded.read ProcessTree.ascending)

theorem reachable_firstUpdate {d : Daemon ℚ} (h : firstUpdate = some d) :
    Reachable (.regular 1 1 Nat.one_pos Nat.one_pos) .cpu 1 10
      ProcessTree.twoThreads.toProcFs runningInfo quietKernel d := by
  obtain ⟨d', hd', hd⟩ := Option.bind_eq_some_iff.mp h
  exact .step (.step .start (by exact rfl) hd') (by exact trivial) hd

/-- The thread 15 is found by the first update, below the thread 10. -/
theorem listed_live_elevenEnded : ∃ d, Reachable (.regular 1 1 Nat.one_pos Nat.one_pos) .cpu 1 10
    ProcessTree.twoThreads.toProcFs runningInfo quietKernel d ∧ d.tids.toList = [10, 15] ∧
      d.tree.Descends 10 15 := by
  have htids : firstUpdate.map (fun d => d.tids.toList) = some [10, 15] := by
    decide
  obtain ⟨d, hd, htids⟩ := Option.map_eq_some_iff.mp htids
  have hreachable := reachable_firstUpdate hd
  refine ⟨d, hreachable, htids, ?_⟩
  have hlive := (listed_live hreachable).1 15 (.inl ?_)
  · exact hlive.resolve_left (by decide)
  · rw [OrderedSet.mem_def, htids]
    decide

/-- **Updates**: in every state that is reached, as long as the child process can be read, an update
keeps the threads that were known or that the scan has found, as far as they and their ancestors
can be read, and returns those that were known and are not kept. -/
theorem update_of_reachable [RealT R] {fs : ProcFs} {infos : Pid → ProcInfo R} {kernel : Kernel}
    (h : Reachable T g self child fs infos kernel d) (view : UpdateView)
    (halive : (view.read.stat child).isSome = true) :
    ∃ update, d.tree.updateThreads self view child = some update ∧
      (∀ q, q ∈ update.threadsToRemove ↔
        d.tree.Descends child q ∧ ¬ update.tree.Descends child q) ∧
      ∀ q, update.tree.Descends child q ↔ q ≠ child ∧
        (d.tree.Descends child q ∨ view.scanned.Finds child q) ∧
          ∀ root, view.read.stat root = none → ¬ Below update.scanned.parentOf root q := by
  have hlive := live_of_reachable h
  obtain ⟨update, heq, hupdate⟩ := ProcessTree.updateThreads_spec self view hlive.consistent
    hlive.rooted hlive.child_mem halive
  have hold := fun q => hlive.rooted.descends_iff (q := q) hlive.consistent
  have hnew := fun q => hupdate.rooted.descends_iff (q := q) hupdate.consistent
  refine ⟨update, heq, fun q => ?_, fun q => ?_⟩
  · rw [hupdate.mem_threadsToRemove, hold, hnew, not_and, Bool.not_eq_true]
    constructor
    · rintro ⟨hq, hlost⟩
      refine ⟨⟨?_, hq⟩, fun _ => hlost⟩
      rintro rfl
      rw [hupdate.child_mem] at hlost
      cases hlost
    · exact fun ⟨⟨hne, hq⟩, hlost⟩ => ⟨hq, hlost hne⟩
  · rw [hnew, hold, hupdate.isSome_iff, hupdate.scanned.isSome_iff, Set.mem_ofPred_eq]
    refine and_congr_right fun hne => and_congr_left fun _ => or_congr_left ?_
    exact (and_iff_right hne).symm

/-- After the first update, in which the process 11 has ended, the threads 10 and 15 are left. -/
theorem update_of_reachable_elevenEnded : ∃ update,
    (ProcessTree.new ProcessTree.twoThreads.toProcFs 10).updateThreads 1 elevenEnded 10 =
        some update ∧ ¬ update.tree.Descends 10 11 ∧ update.tree.pids.toList = [10, 15] := by
  have hstart : Reachable (.regular 1 1 Nat.one_pos Nat.one_pos) .node 1 10
      ProcessTree.twoThreads.toProcFs runningInfo quietKernel (start _ 10 _ _ _) := .start
  obtain ⟨update, heq, -, hmem⟩ := update_of_reachable hstart elevenEnded rfl
  refine ⟨update, heq, fun h => ((hmem 11).mp h).2.2 11 rfl Relation.ReflTransGen.refl, ?_⟩
  have hpids : ((ProcessTree.new ProcessTree.twoThreads.toProcFs 10).updateThreads 1 elevenEnded
      10).map (fun update => update.tree.pids.toList) = some [10, 15] := by
    decide
  exact Option.some.inj ((congrArg _ heq).symm.trans hpids)

end Daemon

end Thanos
