import Thanos.Migration.Cell
import Thanos.SystemInfo.PlacementRuns

/-!
# Undoing migrations

`undo_last_migrations` swaps the halves of the recorded cells and migrates them again.

* **Round trip** (`undo_restores_iff`): under CPU granularity, for threads that last ran on
  their pinned CPU, undoing a list of migrations restores the threads exactly when no half has
  moved its thread. `process::pin` compares the requested CPU with the one last executed on,
  which is the old one until the next refresh, and so issues no call for the way back.
* **Rollback** (`failedPlan_restores_iff`): under node granularity, when a cell of a plan fails
  and the calls of the rollback are granted, every thread of the plan is back on its node
  exactly when the failed cell has moved none of its threads: only cells that succeeded as a
  whole have been recorded.
-/

namespace Thanos

open Thanos.System

variable {R : Type} {T : Topology} {s s' : System R} {t : Pid}

/-! ### The outcomes and calls of the kernel along a run -/

theorem migrate_kernel (half : SimpleMigrationCell R) :
    (half.migrate T s).2.kernel.outcome = s.kernel.outcome ∧
      s.kernel.calls ≤ (half.migrate T s).2.kernel.calls ∧
        (half.migrate T s).2.kernel.calls ≤ s.kernel.calls + 1 := by
  unfold SimpleMigrationCell.migrate
  split
  · obtain ⟨-, mask, -, -, heq⟩ | ⟨-, heq⟩ | ⟨-, mask, -, -, heq⟩ :=
      pinThreadToNode_cases T half.tid half.dest s
    all_goals simp [heq]
  · obtain ⟨-, -, -, heq⟩ | ⟨-, -, -, heq⟩ | ⟨-, heq⟩ | ⟨-, -, -, heq⟩ :=
      pinThreadToCpu_cases T half.tid half.dest s
    all_goals simp [heq]

/-- A half issues at most one call, and calls do not change what is answered later. -/
theorem afterHalves_outcome (ms : List (SimpleMigrationCell R)) :
    (afterHalves T ms s).kernel.outcome = s.kernel.outcome ∧
      s.kernel.calls ≤ (afterHalves T ms s).kernel.calls ∧
        (afterHalves T ms s).kernel.calls ≤ s.kernel.calls + ms.length := by
  induction ms generalizing s with
  | nil => exact ⟨rfl, le_rfl, le_rfl⟩
  | cons half ms ih =>
    obtain ⟨hout, hle, hle'⟩ := migrate_kernel (T := T) (s := s) half
    obtain ⟨hout', hcalls, hcalls'⟩ := @ih (half.migrate T s).2
    rw [afterHalves, run_cons, ← afterHalves, List.length_cons]
    exact ⟨hout'.trans hout, by omega, by omega⟩

/-! ### The round trip of a thread between CPUs -/

/-- The pinned CPU, the mask and the listing of a thread are the same in two states. -/
structure PlacedAlike (s s' : System R) (t : Pid) : Prop where
  cpu : (s'.proc t).pinnedProcessor = (s.proc t).pinnedProcessor
  mask : s'.kernel.affinity t = s.kernel.affinity t
  listed : ∀ c, t ∈ s'.cpuTidMap c ↔ t ∈ s.cpuTidMap c

theorem placedAlike_congr {s₁ s₁' : System R} (h : SameThread s s₁ t) (h' : SameThread s' s₁' t) :
    PlacedAlike s s₁' t ↔ PlacedAlike s₁ s' t := by
  constructor
  · rintro ⟨hcpu, hmask, hlisted⟩
    refine ⟨?_, ?_, fun c => ?_⟩
    · rw [← h'.proc, h.proc, hcpu]
    · rw [← h'.affinity, h.affinity, hmask]
    · rw [← h'.cpu, h.cpu, hlisted]
  · rintro ⟨hcpu, hmask, hlisted⟩
    refine ⟨?_, ?_, fun c => ?_⟩
    · rw [h'.proc, ← h.proc, hcpu]
    · rw [h'.affinity, ← h.affinity, hmask]
    · rw [h'.cpu, ← h.cpu, hlisted]

/-- The thread is pinned and last ran on its pinned CPU. -/
def RanWherePinned (s : System R) (t : Pid) : Prop :=
  (s.proc t).pinned = true ∧ (s.proc t).processor = (s.proc t).pinnedProcessor

/-- A half that succeeds on a thread that last ran on its pinned CPU leaves it there, if that
is the destination, and else moves it. -/
theorem migrate_cpu_of_ran {m : SimpleMigrationCell R} (hnode : m.node = false)
    (hran : RanWherePinned s m.tid) (hok : (m.migrate T s).1 = true) :
    m.tid ≠ 0 ∧
      ((m.dest = (s.proc m.tid).pinnedProcessor ∧ (m.migrate T s).2 = s) ∨
        (m.dest ≠ (s.proc m.tid).pinnedProcessor ∧
          (m.migrate T s).2 = movedToCpu T m.tid m.dest s)) := by
  obtain ⟨hpin, hproc⟩ := hran
  simp only [SimpleMigrationCell.migrate, hnode, Bool.false_eq_true, if_false] at hok ⊢
  obtain ⟨htid, hcpu, -, heq⟩ | ⟨htid, hshort, -, heq⟩ | ⟨-, heq⟩ | ⟨-, -, -, heq⟩ :=
    pinThreadToCpu_cases T m.tid m.dest s
  · -- the shortcut is taken for the CPU last executed on, which is the pinned one
    exact ⟨htid, .inl ⟨hcpu.trans hproc, by rw [heq]⟩⟩
  · exact ⟨htid, .inr ⟨fun h => hshort ⟨h.trans hproc.symm, hpin⟩, by rw [heq]⟩⟩
  · simp [heq] at hok
  · simp [heq] at hok

/-- **Round trip of one thread.** A half and, later, the swapped half with its call granted. -/
theorem placedAlike_round_trip_iff {m : SimpleMigrationCell R} {s₂ : System R}
    (hnode : m.node = false) (hran : RanWherePinned s m.tid)
    (hok : (m.migrate T s).1 = true) (hsame : SameThread (m.migrate T s).2 s₂ m.tid)
    (hgrant : s₂.kernel.outcome s₂.kernel.calls = true) :
    PlacedAlike s (m.swap.migrate T s₂).2 m.tid ↔
      m.dest = (s.proc m.tid).pinnedProcessor ∧ m.prev = (s.proc m.tid).pinnedProcessor := by
  have hproc₂ : s₂.proc m.tid = (m.migrate T s).2.proc m.tid := hsame.proc
  obtain ⟨htid, hmoved⟩ := migrate_cpu_of_ran hnode hran hok
  obtain ⟨hpin, hran⟩ := hran
  -- The process as the way back finds it: pinned, and last run where it was at the start.
  have hproc : (s₂.proc m.tid).pinned = true ∧
      (s₂.proc m.tid).processor = (s.proc m.tid).pinnedProcessor ∧
        (s₂.proc m.tid).pinnedProcessor = m.dest := by
    obtain ⟨hdest, heq⟩ | ⟨-, heq⟩ := hmoved
    · rw [hproc₂, heq]
      exact ⟨hpin, hran, hdest.symm⟩
    · rw [hproc₂, heq]
      exact ⟨by simp, by simpa using hran, by simp⟩
  have hback : (m.swap.migrate T s₂).2 = (pinThreadToCpu T m.tid m.prev s₂).2 := by
    simp [SimpleMigrationCell.migrate, hnode]
  rw [hback]
  obtain ⟨-, hcpu, -, heq⟩ | ⟨-, hshort, -, heq⟩ | ⟨h0, -⟩ | ⟨-, -, hout, -⟩ :=
    pinThreadToCpu_cases T m.tid m.prev s₂
  · -- the shortcut: the thread stays where the first half has left it
    rw [heq]
    have hprev : m.prev = (s.proc m.tid).pinnedProcessor := hcpu.trans hproc.2.1
    constructor
    · intro h
      exact ⟨hproc.2.2.symm.trans h.cpu, hprev⟩
    · rintro ⟨hdest, -⟩
      obtain ⟨-, hstay⟩ | ⟨hne, -⟩ := hmoved
      · rw [hstay] at hsame
        exact ⟨by rw [hsame.proc], hsame.affinity, hsame.cpu⟩
      · exact absurd hdest hne
  · -- a call is issued only if `prev` is not the CPU where the thread was
    rw [heq]
    have hprev : m.prev ≠ (s.proc m.tid).pinnedProcessor :=
      fun h => hshort ⟨h.trans hproc.2.1.symm, hproc.1⟩
    refine iff_of_false (fun h => hprev ?_) fun h => hprev h.2
    simpa using h.cpu
  · exact absurd h0 htid
  · simp [hgrant] at hout

instance : Decidable (RanWherePinned s t) :=
  inferInstanceAs (Decidable (_ ∧ _))

section Undo

variable [RealT R]

/-- A plan whose cells all succeed is recorded. -/
theorem performMigrations_of_success (settings : Settings R) (perfTable : PerfTable R)
    {m : MigrationState R} {cells : List (MigrationCell R)}
    (hmig : (migrateCells T cells m.system).1 = true) :
    (m.performMigrations T settings perfTable cells).system =
        afterHalves T (halves cells) m.system ∧
      (m.performMigrations T settings perfTable cells).lastMigrations =
        m.lastMigrations ++ cells := by
  have happend : m.performMigrations T settings perfTable (cells ++ []) = _ :=
    performMigrations_append [] hmig
  rw [List.append_nil] at happend
  rw [happend, ← migrateCells_snd]
  exact ⟨rfl, rfl⟩

/-- **Round trip.** Cells over pairwise different threads that last ran on their pinned CPU
have all succeeded and are undone, every affinity call of the undo being granted. The threads
have the pinned CPU, the mask and the listing they had before exactly when no half names a CPU
other than the pinned one of its thread. -/
theorem undo_restores_iff (T : Topology) (settings : Settings R) (perfTable : PerfTable R)
    (m : MigrationState R) (cells : List (MigrationCell R)) (hlast : m.lastMigrations = [])
    (hnode : ∀ half ∈ halves cells, half.node = false)
    (hdisj : ((halves cells).map SimpleMigrationCell.tid).Nodup)
    (hran : ∀ half ∈ halves cells, RanWherePinned m.system half.tid)
    (hmig : (migrateCells T cells m.system).1 = true)
    (hgrant : ∀ k, (migrateCells T cells m.system).2.kernel.calls ≤ k →
      k < (migrateCells T cells m.system).2.kernel.calls + (halves cells).length →
        m.system.kernel.outcome k = true) :
    (∀ half ∈ halves cells, PlacedAlike m.system
      ((m.performMigrations T settings perfTable cells).undoLastMigrations
        T settings perfTable false).system half.tid) ↔
      ∀ half ∈ halves cells, half.dest = (m.system.proc half.tid).pinnedProcessor ∧
        half.prev = (m.system.proc half.tid).pinnedProcessor := by
  obtain ⟨hsystem, hrecorded⟩ :=
    performMigrations_of_success settings perfTable hmig
  rw [undoLastMigrations_system, hsystem, hrecorded, hlast, List.nil_append]
  refine forall₂_congr fun half hhalf => ?_
  obtain ⟨pre, post, hsplit⟩ := List.append_of_mem hhalf
  rw [migrateCells_eq, forEach_fst_iff] at hmig
  rw [migrateCells_snd] at hgrant
  rw [hsplit] at hdisj hmig hgrant ⊢
  -- Out: the threads of `pre` and `post` do not disturb that of `half`.
  obtain ⟨hout, hout'⟩ := afterHalves_isolated (T := T) (s := m.system) hdisj
  have hok : (half.migrate T (afterHalves T pre m.system)).1 = true :=
    hmig pre half ⟨post, by simp⟩
  -- Back: the swapped halves name the same threads.
  rw [← map_tid_swap, List.map_append, List.map_cons] at hdisj
  obtain ⟨hback, hback'⟩ := afterHalves_isolated (T := T)
    (s := afterHalves T (pre ++ half :: post) m.system) hdisj
  rw [List.map_append, List.map_cons, placedAlike_congr hout hback']
  have hran' : RanWherePinned (afterHalves T pre m.system) half.tid := by
    rw [RanWherePinned, hout.proc]
    exact hran half hhalf
  obtain ⟨hall, -⟩ := afterHalves_outcome (T := T) (s := m.system) (pre ++ half :: post)
  obtain ⟨hundo, hcalls, hcalls'⟩ := afterHalves_outcome (T := T)
    (s := afterHalves T (pre ++ half :: post) m.system) (pre.map SimpleMigrationCell.swap)
  rw [List.length_map] at hcalls'
  rw [placedAlike_round_trip_iff (hnode half hhalf) hran' hok (hout'.trans hback), hout.proc]
  rw [hundo, hall]
  refine hgrant _ hcalls ?_
  rw [List.length_append, List.length_cons]
  omega

end Undo

/-- Two nodes with a CPU each; threads 1 and 2 have been pinned to CPU 0, on which they last
ran. -/
def pinnedOnce : MigrationState ℚ where
  system := run (perform (Topology.regular 2 1 Nat.two_pos Nat.one_pos) .cpu)
    (boot (Topology.regular 2 1 Nat.two_pos Nat.one_pos) 1
      (fun _ => ⟨none, true, false, ⟨'R', 0, 0, 1⟩⟩) ⟨fun _ => true, 0, fun _ => {0, 1}, {0, 1}⟩)
    [.pinProcess 1, .pinProcess 2]
  lastMigrations := []
  totalMigrations := 0
  totalMigrationsUndone := 0

/-- Thread 2 is moved to CPU 1 and not brought back. -/
theorem undo_restores_iff_pinnedOnce :
    ¬ ∀ half ∈ halves [(⟨[⟨2, 1, 1, 0, false, 0⟩], ⟨2, 8⟩⟩ : MigrationCell ℚ)],
      PlacedAlike pinnedOnce.system
        ((pinnedOnce.performMigrations (Topology.regular 2 1 Nat.two_pos Nat.one_pos)
          (Settings.default 1 64) emptyPerfTable
          [⟨[⟨2, 1, 1, 0, false, 0⟩], ⟨2, 8⟩⟩]).undoLastMigrations
            (Topology.regular 2 1 Nat.two_pos Nat.one_pos)
            (Settings.default 1 64) emptyPerfTable false).system half.tid := by
  intro h
  have hstay := (undo_restores_iff (Topology.regular 2 1 Nat.two_pos Nat.one_pos)
    (Settings.default 1 64) emptyPerfTable pinnedOnce
    [⟨[⟨2, 1, 1, 0, false, 0⟩], ⟨2, 8⟩⟩] rfl (by simp [halves]) (by simp [halves])
    (by simp only [halves]; decide) (by decide) (fun _ _ _ => rfl)).mp h
  exact absurd (hstay _ (List.mem_singleton.mpr rfl)).1 (by decide)

/-- In a coherent state thread 1 is moved to CPU 1; undoing this at once leaves it there. -/
theorem not_undo_restores :
    ¬ ∀ (T : Topology) (settings : Settings ℚ) (perfTable : PerfTable ℚ) (m : MigrationState ℚ)
      (cells : List (MigrationCell ℚ)), m.lastMigrations = [] → (∀ t, CpuCoherent m.system t) →
      (∀ half ∈ halves cells, half.node = false) →
      ((halves cells).map SimpleMigrationCell.tid).Nodup →
      (∀ half ∈ halves cells, RanWherePinned m.system half.tid) →
      (migrateCells T cells m.system).1 = true → (∀ k, m.system.kernel.outcome k = true) →
      ∀ half ∈ halves cells, PlacedAlike m.system
        ((m.performMigrations T settings perfTable cells).undoLastMigrations
          T settings perfTable false).system half.tid := by
  intro h
  have hplaced := h (Topology.regular 2 1 Nat.two_pos Nat.one_pos) (Settings.default 1 64)
    emptyPerfTable pinnedOnce [⟨[⟨1, 1, 1, 0, false, 0⟩], ⟨2, 8⟩⟩] rfl
    (cpuCoherent_run _) (by simp [halves]) (by simp [halves]) (by simp only [halves]; decide)
    (by decide) (fun _ => rfl) _ (List.mem_singleton.mpr rfl)
  exact absurd hplaced.cpu (by decide)

/-! ### The rollback of a failed plan between nodes -/

/-- The half moves its thread from its pinned node to an allowed one. -/
structure NodeHalf (T : Topology) (s : System R) (half : SimpleMigrationCell R) : Prop where
  node : half.node = true
  tid : half.tid ≠ 0
  dest : half.dest ∈ T.nodes
  prev : half.prev = (s.proc half.tid).pinnedNumaNode
  prev_mem : half.prev ∈ T.nodes

instance (half : SimpleMigrationCell R) : Decidable (NodeHalf T s half) :=
  decidable_of_iff (half.node = true ∧ half.tid ≠ 0 ∧ half.dest ∈ T.nodes ∧
      half.prev = (s.proc half.tid).pinnedNumaNode ∧ half.prev ∈ T.nodes)
    ⟨fun ⟨h₁, h₂, h₃, h₄, h₅⟩ => ⟨h₁, h₂, h₃, h₄, h₅⟩,
      fun h => ⟨h.node, h.tid, h.dest, h.prev, h.prev_mem⟩⟩

/-- A half between allowed nodes issues one call; if it is granted the thread changes node. -/
theorem migrate_node {half : SimpleMigrationCell R} (hnode : half.node = true)
    (htid : half.tid ≠ 0) (hdest : half.dest ∈ T.nodes) :
    (half.migrate T s).1 = s.kernel.outcome s.kernel.calls ∧
      (half.migrate T s).2.kernel.calls = s.kernel.calls + 1 ∧
      ((half.migrate T s).2.proc half.tid).pinnedNumaNode =
        if s.kernel.outcome s.kernel.calls then half.dest
        else (s.proc half.tid).pinnedNumaNode := by
  obtain ⟨mask, hmask, hsize⟩ := T.numaNodeToCpus_of_mem half.dest hdest
  have hgrants : s.kernel.grants mask = s.kernel.outcome s.kernel.calls := by
    rw [Kernel.grants, decide_eq_true hsize, Bool.and_true]
  simp only [SimpleMigrationCell.migrate, hnode, if_true]
  obtain ⟨-, mask', hmask', hgrant, heq⟩ | ⟨hno, -⟩ | ⟨-, mask', hmask', hgrant, heq⟩ :=
    pinThreadToNode_cases T half.tid half.dest s
  · obtain rfl : mask = mask' := Option.some.inj (hmask.symm.trans hmask')
    rw [hgrants] at hgrant
    simp [heq, hgrant]
  · obtain h | h := hno
    · exact absurd h htid
    · simp [hmask] at h
  · obtain rfl : mask = mask' := Option.some.inj (hmask.symm.trans hmask')
    rw [hgrants] at hgrant
    simp [heq, hgrant]

/-- Halves between allowed nodes issue one call each. -/
theorem afterHalves_calls {ms : List (SimpleMigrationCell R)}
    (hms : ∀ half ∈ ms, half.node = true ∧ half.tid ≠ 0 ∧ half.dest ∈ T.nodes) :
    (afterHalves T ms s).kernel.calls = s.kernel.calls + ms.length := by
  induction ms generalizing s with
  | nil => rfl
  | cons half ms ih =>
    obtain ⟨hnode, htid, hdest⟩ := hms half List.mem_cons_self
    rw [afterHalves, run_cons, ih fun half' h => hms half' (List.mem_cons_of_mem half h),
      (migrate_node hnode htid hdest).2.1, List.length_cons]
    omega

/-- The node of a thread after several halves, one of which is its own: the destination if the
call of that half was granted. -/
theorem afterHalves_node {pre post : List (SimpleMigrationCell R)} {half : SimpleMigrationCell R}
    (hms : ∀ m ∈ pre ++ half :: post, m.node = true ∧ m.tid ≠ 0 ∧ m.dest ∈ T.nodes)
    (hdisj : ((pre ++ half :: post).map SimpleMigrationCell.tid).Nodup) :
    ((afterHalves T (pre ++ half :: post) s).proc half.tid).pinnedNumaNode =
      if s.kernel.outcome (s.kernel.calls + pre.length) then half.dest
      else (s.proc half.tid).pinnedNumaNode := by
  obtain ⟨hbefore, hafter⟩ := afterHalves_isolated (T := T) (s := s) hdisj
  obtain ⟨hnode, htid, hdest⟩ := hms half (by simp)
  obtain ⟨-, -, hmoved⟩ := migrate_node (s := afterHalves T pre s) hnode htid hdest
  rw [hafter.proc, hmoved, hbefore.proc, (afterHalves_outcome pre).1,
    afterHalves_calls fun m h => hms m (List.mem_append_left _ h)]

/-- Swapped halves all of whose calls are granted bring their threads to the previous nodes. -/
theorem afterHalves_swap_node {ms : List (SimpleMigrationCell R)} {half : SimpleMigrationCell R}
    (hhalf : half ∈ ms) (hms : ∀ m ∈ ms, m.node = true ∧ m.tid ≠ 0 ∧ m.prev ∈ T.nodes)
    (hdisj : (ms.map SimpleMigrationCell.tid).Nodup)
    (hgrant : ∀ k, s.kernel.calls ≤ k → k < s.kernel.calls + ms.length →
      s.kernel.outcome k = true) :
    ((afterHalves T (ms.map SimpleMigrationCell.swap) s).proc half.tid).pinnedNumaNode =
      half.prev := by
  have hswapped : ∀ m ∈ ms.map SimpleMigrationCell.swap,
      m.node = true ∧ m.tid ≠ 0 ∧ m.dest ∈ T.nodes := by
    intro m hm
    obtain ⟨m', hm', rfl⟩ := List.mem_map.mp hm
    exact hms m' hm'
  obtain ⟨pre, post, rfl⟩ := List.append_of_mem hhalf
  rw [← map_tid_swap] at hdisj
  rw [List.map_append, List.map_cons] at hswapped hdisj ⊢
  have hnode := afterHalves_node (s := s) hswapped hdisj
  have hcall : s.kernel.outcome (s.kernel.calls + pre.length) = true := by
    refine hgrant _ (Nat.le_add_right _ _) ?_
    rw [List.length_append, List.length_cons]
    omega
  rwa [List.length_map, hcall, if_pos rfl] at hnode

section Rollback

variable [RealT R] {settings : Settings R} {perfTable : PerfTable R}

/-- The system after a plan whose first failing cell is `cell`. -/
theorem performMigrations_of_failure {m : MigrationState R} {pre post : List (MigrationCell R)}
    {cell : MigrationCell R} (hlast : m.lastMigrations = [])
    (hpre : (migrateCells T pre m.system).1 = true)
    (hcell : (cell.migrate T (migrateCells T pre m.system).2).1 = false) :
    (m.performMigrations T settings perfTable (pre ++ cell :: post)).system =
      afterHalves T ((halves pre).map SimpleMigrationCell.swap)
        (afterHalves T (halves pre ++ cell.migrations) m.system) := by
  rw [performMigrations_append _ hpre]
  rcases hmig : cell.migrate T (migrateCells T pre m.system).2 with ⟨ok, s'⟩
  rw [hmig] at hcell
  obtain rfl : ok = false := hcell
  have hs' : s' = afterHalves T (halves pre ++ cell.migrations) m.system := by
    rw [afterHalves, run_append, ← afterHalves, ← afterHalves, ← migrateCells_snd, ← migrate_snd,
      hmig]
  simp only [MigrationState.performMigrations, hmig]
  rw [undoLastMigrations_system, hlast, List.nil_append, hs']

/-- **Rollback of one thread.** After the rollback the threads of the recorded cells and those
not yet reached have their node, and a thread of the failed cell has it unless the call of its
half was granted. -/
theorem rollback_node (settings : Settings R) (perfTable : PerfTable R) {m : MigrationState R}
    {pre post : List (MigrationCell R)} {cell : MigrationCell R} (hlast : m.lastMigrations = [])
    (hvalid : ∀ half ∈ halves (pre ++ cell :: post), NodeHalf T m.system half)
    (hdisj : ((halves (pre ++ cell :: post)).map SimpleMigrationCell.tid).Nodup)
    (hpre : (migrateCells T pre m.system).1 = true)
    (hcell : (cell.migrate T (migrateCells T pre m.system).2).1 = false)
    (hundo : ∀ k, m.system.kernel.calls + (halves pre).length + cell.migrations.length ≤ k →
      k < m.system.kernel.calls + 2 * (halves pre).length + cell.migrations.length →
        m.system.kernel.outcome k = true) :
    (∀ half ∈ halves pre ++ halves post,
      ((m.performMigrations T settings perfTable (pre ++ cell :: post)).system.proc
        half.tid).pinnedNumaNode = (m.system.proc half.tid).pinnedNumaNode) ∧
    ∀ before half after, cell.migrations = before ++ half :: after →
      ((m.performMigrations T settings perfTable (pre ++ cell :: post)).system.proc
        half.tid).pinnedNumaNode =
        if m.system.kernel.outcome (m.system.kernel.calls + (halves pre).length + before.length)
        then half.dest else (m.system.proc half.tid).pinnedNumaNode := by
  rw [performMigrations_of_failure hlast hpre hcell]
  rw [halves_append_cons] at hvalid hdisj
  have hmoves : ∀ half ∈ halves pre ++ cell.migrations,
      half.node = true ∧ half.tid ≠ 0 ∧ half.dest ∈ T.nodes := fun half h =>
    let hhalf := hvalid half (List.mem_append_left _ h)
    ⟨hhalf.node, hhalf.tid, hhalf.dest⟩
  rw [List.map_append, List.nodup_append] at hdisj
  obtain ⟨hdone, -, hrest⟩ := hdisj
  have hdone' := hdone
  rw [List.map_append, List.nodup_append] at hdone'
  obtain ⟨hundone, -, hfailed⟩ := hdone'
  obtain ⟨hout, -⟩ := afterHalves_outcome (T := T) (s := m.system) (halves pre ++ cell.migrations)
  have hcalls := afterHalves_calls (s := m.system) hmoves
  -- The rollback names the threads of the recorded cells only.
  have hkeep : ∀ tid, tid ∉ (halves pre).map SimpleMigrationCell.tid →
      SameThread (afterHalves T (halves pre ++ cell.migrations) m.system)
        (afterHalves T ((halves pre).map SimpleMigrationCell.swap)
          (afterHalves T (halves pre ++ cell.migrations) m.system)) tid := by
    intro tid htid
    rw [← map_tid_swap] at htid
    exact afterHalves_sameThread htid
  refine ⟨fun half hhalf => ?_, fun before half after hsplit => ?_⟩
  · obtain hhalf | hhalf := List.mem_append.mp hhalf
    · -- a recorded half is swapped and its call granted
      have hback := hvalid half (List.mem_append_left _ (List.mem_append_left _ hhalf))
      have hms : ∀ m' ∈ halves pre, m'.node = true ∧ m'.tid ≠ 0 ∧ m'.prev ∈ T.nodes := by
        intro m' hm'
        have hvalid' := hvalid m' (List.mem_append_left _ (List.mem_append_left _ hm'))
        exact ⟨hvalid'.node, hvalid'.tid, hvalid'.prev_mem⟩
      have hend := afterHalves_swap_node
        (s := afterHalves T (halves pre ++ cell.migrations) m.system) hhalf hms hundone
        fun k hk hk' => ?_
      · exact hend.trans hback.prev
      · rw [hcalls, List.length_append] at hk hk'
        rw [hout]
        exact hundo k (by omega) (by omega)
    · -- a half that was not reached
      have hpost : half.tid ∉ (halves pre ++ cell.migrations).map SimpleMigrationCell.tid :=
        fun h => hrest _ h _ (List.mem_map_of_mem hhalf) rfl
      rw [List.map_append, List.mem_append, not_or] at hpost
      rw [(hkeep half.tid hpost.1).proc, (afterHalves_sameThread ?_).proc]
      rw [List.map_append, List.mem_append, not_or]
      exact hpost
  · -- a half of the failed cell is not taken back
    have hmem : half ∈ cell.migrations := hsplit ▸ List.mem_append_right before List.mem_cons_self
    have hnot : half.tid ∉ (halves pre).map SimpleMigrationCell.tid :=
      fun h => hfailed _ h _ (List.mem_map_of_mem hmem) rfl
    rw [(hkeep half.tid hnot).proc]
    rw [hsplit, ← List.append_assoc] at hmoves hdone ⊢
    rw [afterHalves_node hmoves hdone, List.length_append, Nat.add_assoc]

/-- **Rollback.** A plan of cells between allowed nodes over pairwise different threads is
performed, the cells `pre` succeed and `cell` fails, and the calls of the rollback are granted.
Every thread of the plan is on the node it was on exactly when no half of the failed cell whose
call was granted names another node. -/
theorem failedPlan_restores_iff (T : Topology) (settings : Settings R) (perfTable : PerfTable R)
    (m : MigrationState R) (pre post : List (MigrationCell R)) (cell : MigrationCell R)
    (hlast : m.lastMigrations = [])
    (hvalid : ∀ half ∈ halves (pre ++ cell :: post), NodeHalf T m.system half)
    (hdisj : ((halves (pre ++ cell :: post)).map SimpleMigrationCell.tid).Nodup)
    (hpre : (migrateCells T pre m.system).1 = true)
    (hcell : (cell.migrate T (migrateCells T pre m.system).2).1 = false)
    (hundo : ∀ k, m.system.kernel.calls + (halves pre).length + cell.migrations.length ≤ k →
      k < m.system.kernel.calls + 2 * (halves pre).length + cell.migrations.length →
        m.system.kernel.outcome k = true) :
    (∀ half ∈ halves (pre ++ cell :: post),
      ((m.performMigrations T settings perfTable (pre ++ cell :: post)).system.proc
        half.tid).pinnedNumaNode = (m.system.proc half.tid).pinnedNumaNode) ↔
    ∀ before half after, cell.migrations = before ++ half :: after →
      m.system.kernel.outcome (m.system.kernel.calls + (halves pre).length + before.length) = true →
        half.dest = half.prev := by
  obtain ⟨hothers, hfailed⟩ := rollback_node settings perfTable hlast
    hvalid hdisj hpre hcell hundo
  constructor
  · intro hall before half after hsplit hgrant
    have hmem : half ∈ halves (pre ++ cell :: post) := by
      simp [halves_append_cons, hsplit]
    have hnode := hfailed before half after hsplit
    rw [hall half hmem, hgrant, if_pos rfl] at hnode
    rw [(hvalid half hmem).prev, hnode]
  · intro hgood half hhalf
    have hprev := (hvalid half hhalf).prev
    rw [halves_append_cons, List.append_assoc, List.mem_append, List.mem_append] at hhalf
    obtain hhalf | hhalf | hhalf := hhalf
    · exact hothers half (List.mem_append_left _ hhalf)
    · obtain ⟨before, after, hsplit⟩ := List.append_of_mem hhalf
      rw [hfailed before half after hsplit]
      split
      case isTrue hgrant => exact (hgood before half after hsplit hgrant).trans hprev
      case isFalse => rfl
    · exact hothers half (List.mem_append_right _ hhalf)

end Rollback

/-- Two nodes with a CPU each; threads 1 and 3 have been pinned to node 0 and thread 2 to node
1. -/
def pinnedToNodes (outcome : ℕ → Bool) : MigrationState ℚ where
  system := run (perform (Topology.regular 2 1 Nat.two_pos Nat.one_pos) .node)
    (boot (Topology.regular 2 1 Nat.two_pos Nat.one_pos) 1
      (fun pid => ⟨none, true, false, ⟨'R', 0, if pid = 2 then 1 else 0, 1⟩⟩)
      ⟨outcome, 0, fun _ => {0, 1}, {0, 1}⟩)
    [.pinProcess 1, .pinProcess 2, .pinProcess 3]
  lastMigrations := []
  totalMigrations := 0
  totalMigrationsUndone := 0

/-- The interchange of threads 1 and 2. -/
def interchangeOneTwo : MigrationCell ℚ :=
  ⟨[⟨1, 1, 1, 0, true, 0⟩, ⟨2, 1, 0, 1, true, 0⟩], ⟨2, 0⟩⟩

/-- Thread 3 is moved to node 1, then both calls of the interchange are refused. -/
def afterRefusals : MigrationState ℚ :=
  (pinnedToNodes fun k => k != 4 && k != 5).performMigrations
    (Topology.regular 2 1 Nat.two_pos Nat.one_pos) (Settings.default 1 64) emptyPerfTable
    [⟨[⟨3, 1, 1, 0, true, 0⟩], ⟨2, 0⟩⟩, interchangeOneTwo]

/-- The rollback brings thread 3 back to node 0. -/
theorem failedPlan_restores_iff_refused :
    (afterRefusals.system.proc 3).pinnedNumaNode = 0 ∧
      (afterRefusals.system.proc 1).pinnedNumaNode = 0 ∧
        (afterRefusals.system.proc 2).pinnedNumaNode = 1 := by
  have hback := (failedPlan_restores_iff (Topology.regular 2 1 Nat.two_pos Nat.one_pos)
    (Settings.default 1 64) emptyPerfTable (pinnedToNodes fun k => k != 4 && k != 5)
    [⟨[⟨3, 1, 1, 0, true, 0⟩], ⟨2, 0⟩⟩] [] interchangeOneTwo rfl (by decide) (by decide)
    (by decide) (by decide) ?_).mpr ?_
  · exact ⟨hback ⟨3, 1, 1, 0, true, 0⟩ (by simp [halves]),
      hback ⟨1, 1, 1, 0, true, 0⟩ (by simp [halves, interchangeOneTwo]),
      hback ⟨2, 1, 0, 1, true, 0⟩ (by simp [halves, interchangeOneTwo])⟩
  · intro k hk _
    have hsix : 6 ≤ k := hk
    change (k != 4 && k != 5) = true
    simp only [Bool.and_eq_true, bne_iff_ne]
    omega
  · -- the calls of the interchange are the fourth and the fifth
    intro before half after hsplit hgrant
    have hlength := congrArg List.length hsplit
    rw [List.length_append, List.length_cons] at hlength
    change 2 = before.length + (after.length + 1) at hlength
    obtain hbefore | hbefore : before.length = 0 ∨ before.length = 1 := by omega
    all_goals
      rw [hbefore] at hgrant
      exact absurd hgrant (by decide)

/-- The first call of an interchange is granted and the second refused; the rollback leaves
thread 1 on node 1. -/
theorem not_failedPlan_restores :
    ¬ ∀ (T : Topology) (settings : Settings ℚ) (perfTable : PerfTable ℚ) (m : MigrationState ℚ)
      (pre post : List (MigrationCell ℚ)) (cell : MigrationCell ℚ),
      m.lastMigrations = [] → (∀ t, NodeCoherent T m.system t) →
      (∀ half ∈ halves (pre ++ cell :: post), NodeHalf T m.system half) →
      ((halves (pre ++ cell :: post)).map SimpleMigrationCell.tid).Nodup →
      (migrateCells T pre m.system).1 = true →
      (cell.migrate T (migrateCells T pre m.system).2).1 = false →
      (∀ k, m.system.kernel.calls + (halves pre).length + cell.migrations.length ≤ k →
        m.system.kernel.outcome k = true) →
      ∀ half ∈ halves (pre ++ cell :: post),
        ((m.performMigrations T settings perfTable (pre ++ cell :: post)).system.proc
          half.tid).pinnedNumaNode = (m.system.proc half.tid).pinnedNumaNode := by
  intro h
  have hnode := h (Topology.regular 2 1 Nat.two_pos Nat.one_pos) (Settings.default 1 64)
    emptyPerfTable (pinnedToNodes fun k => k != 4) [] [] interchangeOneTwo rfl
    (nodeCoherent_run _) (by decide) (by decide) (by decide) (by decide) ?_ _ List.mem_cons_self
  · exact absurd hnode (by decide)
  · intro k hk
    have hfive : 5 ≤ k := hk
    change (k != 4) = true
    simp only [bne_iff_ne]
    omega

end Thanos
