import Thanos.Migration.Balance
import Thanos.Strategies.PlanThreads
import Thanos.Strategies.Rollback
import Thanos.SystemInfo.ThreadRuns

/-!
# The migrations of threads

The main loop calls the `migrate` of the strategy in use and its `balance`, in whatever order its
timers ask for it, and refreshes and removes processes in between. Whatever the strategy, the
tables and the draws are, and whatever the affinity calls answer:

* **Refinement** (`moves_migrate`, `moves_balance`): both are operations on the placement, of
  the granularity of the strategy, on threads that are known.
* **Placement** (`coherent_of_reachable`): so the placement is coherent in every state.
* **Accounts** (`accounted_of_reachable`): no migration is undone twice.
-/

namespace Thanos

variable {R : Type} [RealT R]

namespace Strategy

/-- The strategy pins threads to single CPUs, or to nodes. -/
def granularity (strategy : Strategy) : Granularity :=
  if strategy.migrateToNodes then .node else .cpu

/-- What a call of `migrate` reads. -/
structure Inputs (R : Type) where
  perfTable : PerfTable R
  /-- `total_performance()` of the table. -/
  totalPerformance : R
  draws : Draws R

section

variable (T : Topology) (settings : Settings R) (strategy : Strategy)

/-- `migrate` of the strategies that keep nothing of their last plan. If planning is given up,
nothing is migrated. -/
def migrateAnew (inputs : Inputs R) (st : Imar2.State R) : Imar2.State R :=
  if inputs.totalPerformance < negligiblePerformance then
    { st with lastPerformance := performanceInvalidValue }
  else
    let migration := { st.migration with lastMigrations := [] }
    let st := { st with migration := migration, lastPerformance := inputs.totalPerformance }
    let g : Globals R := ⟨T, settings, inputs.perfTable, migration.system⟩
    match strategy.performMigrationAlgorithm g inputs.draws with
    | none => st
    | some migrations =>
      { st with
        migration := .performMigrations T settings inputs.perfTable migrations migration }

/-- `migrate`. -/
def migrate (undoThreshold : R) (inputs : Inputs R) (st : Imar2.State R) : Imar2.State R :=
  match strategy with
  | imar2 =>
    (Imar2.migrate T settings inputs.perfTable inputs.totalPerformance undoThreshold st).2
  | strategy => migrateAnew T settings strategy inputs st

/-- `balance`, with the migrations it has done; the result is `none` when the fuel of a loop runs
out. -/
def balance (perfTable : PerfTable R) (fuel : ℕ) (ignoreIdle : Bool) (children : List Pid)
    (s : System R) : Option (LoopState R) :=
  if strategy.migrateToNodes then
    -- if a thread cannot be pinned, nothing is balanced
    match s.pinThreadsNode T ignoreIdle children with
    | (true, s) => balanceNodes T settings perfTable fuel ignoreIdle s
    | (false, s) => some (s, [])
  else
    match s.pinThreadsCpu T ignoreIdle children with
    | (true, s) => balanceCpus T settings perfTable fuel ignoreIdle s
    | (false, s) => some (s, [])

end

end Strategy

/-! ### Cells -/

section Cells

variable {T : Topology} {settings : Settings R} {perfTable : PerfTable R} {strategy : Strategy}
  {s s' : System R} {threads : Set Pid} {cells : List (MigrationCell R)} {m : MigrationState R}

/-- The halves of some cells are of the kind of the strategy, and move some threads. -/
def CellsMove (strategy : Strategy) (threads : Set Pid) (cells : List (MigrationCell R)) : Prop :=
  ∀ half ∈ halves cells, half.node = strategy.migrateToNodes ∧ half.tid ∈ threads

omit [RealT R] in
theorem cellsMove_nil : CellsMove strategy threads ([] : List (MigrationCell R)) :=
  fun _ hhalf => absurd hhalf List.not_mem_nil

omit [RealT R] in
theorem cellsMove_append {cells' : List (MigrationCell R)} :
    CellsMove strategy threads (cells ++ cells') ↔
      CellsMove strategy threads cells ∧ CellsMove strategy threads cells' := by
  rw [CellsMove, halves, List.flatMap_append]
  exact List.forall_mem_append

omit [RealT R] in
/-- A half is an operation on its thread. -/
theorem moves_half {half : SimpleMigrationCell R} (hnode : half.node = strategy.migrateToNodes)
    (htid : half.tid ∈ threads) :
    Runs (System.perform T strategy.granularity) (System.Moves threads) s
      (half.migrate T s).2 := by
  have hop : (half.migrate T s).2 =
      System.perform T strategy.granularity s (.migrate half.tid half.dest) := by
    rw [SimpleMigrationCell.migrate, hnode, Strategy.granularity]
    cases strategy.migrateToNodes <;> rfl
  rw [hop]
  exact .single (.migrate half.dest htid)

omit [RealT R] in
theorem moves_cell {cell : MigrationCell R} (h : CellsMove strategy threads [cell]) :
    Runs (System.perform T strategy.granularity) (System.Moves threads) s
      (cell.migrate T s).2 := by
  refine .forEach fun half hhalf s => ?_
  obtain ⟨hnode, htid⟩ := h half (by simpa [halves] using hhalf)
  exact moves_half hnode htid

omit [RealT R] in
/-- A cell that is swapped moves the same threads. -/
theorem CellsMove.swap {cell : MigrationCell R} (h : CellsMove strategy threads [cell]) :
    CellsMove strategy threads [cell.swap] := by
  intro half hhalf
  obtain ⟨half', hhalf', rfl⟩ : ∃ half' ∈ cell.migrations, half'.swap = half := by
    simpa [halves, MigrationCell.swap] using hhalf
  exact h half' (by simpa [halves] using hhalf')

omit [RealT R] in
theorem cellsMove_of_mem {cell : MigrationCell R} (h : CellsMove strategy threads cells)
    (hcell : cell ∈ cells) : CellsMove strategy threads [cell] := fun half hhalf =>
  h half (List.mem_flatMap.mpr ⟨cell, hcell, by simpa [halves] using hhalf⟩)

variable (T settings perfTable) in
/-- A cell is left alone, or migrated back and counted if that succeeds. -/
theorem undo_cases (onlyBadMigr : Bool) (m : MigrationState R) (cell : MigrationCell R) :
    m.undo T settings perfTable onlyBadMigr cell = m ∨
    m.undo T settings perfTable onlyBadMigr cell =
      { m with
        system := (cell.swap.migrate T m.system).2
        totalMigrationsUndone :=
          m.totalMigrationsUndone + if (cell.swap.migrate T m.system).1 then 1 else 0 } := by
  unfold MigrationState.undo
  refine (Classical.em _).elim (fun hcond => .inr ((if_pos hcond).trans ?_))
    fun hcond => .inl (if_neg hcond)
  rcases cell.swap.migrate T m.system with ⟨_ | _, s⟩ <;> rfl

/-- The last migrations are taken back on their threads. -/
theorem moves_undoLastMigrations (onlyBadMigr : Bool)
    (h : CellsMove strategy threads m.lastMigrations) :
    Runs (System.perform T strategy.granularity) (System.Moves threads) m.system
      (m.undoLastMigrations T settings perfTable onlyBadMigr).system := by
  refine run_invariant_of_mem (I := fun m' : MigrationState R =>
    Runs (System.perform T strategy.granularity) (System.Moves threads) m.system m'.system)
    (.refl _)
    fun m' cell hcell hm' => ?_
  obtain heq | heq := undo_cases T settings perfTable onlyBadMigr m' cell
  · rwa [heq]
  · rw [heq]
    exact hm'.trans (moves_cell (cellsMove_of_mem h hcell).swap)

/-- A plan is carried out, or taken back, on its threads. -/
theorem moves_performMigrations (hlast : CellsMove strategy threads m.lastMigrations)
    (h : CellsMove strategy threads cells) :
    Runs (System.perform T strategy.granularity) (System.Moves threads) m.system
        (MigrationState.performMigrations T settings perfTable cells m).system ∧
      CellsMove strategy threads
        (MigrationState.performMigrations T settings perfTable cells m).lastMigrations := by
  induction cells generalizing m with
  | nil => exact ⟨.refl _, hlast⟩
  | cons cell cells ih =>
    have happend : CellsMove strategy threads ([cell] ++ cells) := h
    obtain ⟨hcell, hrest⟩ := cellsMove_append.mp happend
    have hfirst := moves_cell (T := T) (s := m.system) hcell
    rw [MigrationState.performMigrations]
    split
    · rename_i s heq
      rw [heq] at hfirst
      -- the cell has been migrated: it may be undone later
      obtain ⟨hruns, hkinds⟩ := @ih
        { m with
          system := s
          totalMigrations := m.totalMigrations + 1
          lastMigrations := m.lastMigrations ++ [cell] }
        (cellsMove_append.mpr ⟨hlast, hcell⟩) hrest
      exact ⟨hfirst.trans hruns, hkinds⟩
    · rename_i s heq
      rw [heq] at hfirst
      -- the cell failed: those before it are taken back
      exact ⟨hfirst.trans (moves_undoLastMigrations (m := { m with system := s }) false hlast),
        cellsMove_nil⟩

end Cells

/-! ### Strategies -/

namespace Strategy

variable {T : Topology} {settings : Settings R} {strategy : Strategy} {threads : Set Pid}
  {undoThreshold : R} {inputs : Inputs R} {st : Imar2.State R}

/-- **Refinement** of `migrate`: whether it plans or rolls back, it moves threads that are known,
or that IMAR2 has moved last. -/
theorem moves_migrate (T : Topology) (settings : Settings R) (undoThreshold : R)
    (inputs : Inputs R)
    (hlast : strategy = imar2 → CellsMove strategy threads st.migration.lastMigrations)
    (hknown : ∀ t, (⟨T, settings, inputs.perfTable, st.migration.system⟩ : Globals R).Knows t →
      t ∈ threads) :
    Runs (System.perform T strategy.granularity) (System.Moves threads) st.migration.system
        (strategy.migrate T settings undoThreshold inputs st).migration.system ∧
      (CellsMove strategy threads st.migration.lastMigrations → CellsMove strategy threads
        (strategy.migrate T settings undoThreshold inputs st).migration.lastMigrations) := by
  have hplan : ∀ cells : List (MigrationCell R),
      (∀ cell ∈ cells, (⟨T, settings, inputs.perfTable, st.migration.system⟩ :
        Globals R).NamesAll strategy.migrateToNodes cell) → CellsMove strategy threads cells := by
    -- a plan names known threads, whichever strategy made it
    intro cells hcells half hhalf
    obtain ⟨cell, hcell, hhalf⟩ := List.mem_flatMap.mp hhalf
    have hnames := hcells cell hcell half hhalf
    exact ⟨hnames.node_eq, hknown _ hnames.knows⟩
  have hanew : Runs (System.perform T strategy.granularity) (System.Moves threads)
        st.migration.system (migrateAnew T settings strategy inputs st).migration.system ∧
      (CellsMove strategy threads st.migration.lastMigrations → CellsMove strategy threads
        (migrateAnew T settings strategy inputs st).migration.lastMigrations) := by
    rw [migrateAnew]
    split_ifs with hnegligible
    · exact ⟨.refl _, id⟩
    · dsimp only
      split
      · exact ⟨.refl _, fun _ => cellsMove_nil⟩
      · rename_i migrations hmigrations
        exact (moves_performMigrations cellsMove_nil
          (hplan migrations (strategy.namesAll_of_plan inputs.draws hmigrations))).imp_right
            fun hkind _ => hkind
  cases strategy with
  | imar2 =>
    rw [migrate, Imar2.migrate]
    split
    · exact ⟨.refl _, id⟩
    · exact ⟨.refl _, id⟩
    · -- the performance has dropped: IMAR2 takes its last plan back
      exact ⟨moves_undoLastMigrations true (hlast rfl), fun _ => cellsMove_nil⟩
    · exact (moves_performMigrations cellsMove_nil
        (hplan _ (imar2.namesAll_of_plan inputs.draws rfl))).imp_right fun hkind _ => hkind
  | lbma | cimar | nimar | random | rm3d | annealingNode => exact hanew

variable {perfTable : PerfTable R} {L : Level R} {minTids fuel src : ℕ} {places : List ℕ}
  {s s' : System R} {st₀ r : LoopState R}

/-- A sweep moves threads that are listed. -/
theorem moves_sweep (hnode : L.node = strategy.migrateToNodes)
    (hL : ∀ s place, ∀ t ∈ L.tids s place, s.Listed t)
    (h : sweep T settings perfTable L minTids fuel places st₀ = some r) :
    Runs (System.perform T strategy.granularity) (System.Moves {t | st₀.1.Listed t}) st₀.1 r.1 := by
  refine invariant_of_sweep (I := fun s => Runs (System.perform T strategy.granularity)
    (System.Moves {t | st₀.1.Listed t}) st₀.1 s) (.refl _) (fun src _ st hsrc hst => ?_) h
  obtain ⟨-, heq⟩ | ⟨tid, dst, ⟨htid, -⟩, hcases⟩ := moveBody_cases T settings perfTable hsrc
  · rwa [heq]
  · -- no other threads have been listed in the meantime
    have hmem : tid ∈ {t | st₀.1.Listed t} :=
      System.RunsOn.listed (hst.mono fun _ hop => hop.namesOnly) (fun t ht => ht)
        (hL _ _ _ (OrderedSet.mem_of_begin? htid))
    have hmove : CellsMove strategy {t | st₀.1.Listed t}
        [balancingCell settings perfTable L st.1 tid src dst] := by
      intro half hhalf
      obtain rfl : half = _ := by simpa [halves, balancingCell] using hhalf
      exact ⟨hnode, hmem⟩
    obtain ⟨-, heq⟩ | ⟨-, heq⟩ := hcases
    · rw [heq]
      exact hst.trans (moves_cell hmove)
    · rw [heq]
      exact hst.trans (moves_cell hmove)

variable {ignoreIdle : Bool} {children : List Pid}

theorem listed_ofCpus {s : System R} {cpu : Cpu} {t : Pid}
    (ht : t ∈ (Level.ofCpus T ignoreIdle).tids s cpu) : s.Listed t := by
  refine .inl ⟨cpu, ?_⟩
  cases ignoreIdle with
  | false => exact ht
  | true => exact (OrderedSet.mem_filter.mp ht).1

theorem listed_ofNodes {s : System R} {node : Node} {t : Pid}
    (ht : t ∈ (Level.ofNodes T ignoreIdle).tids s node) : s.Listed t := by
  refine .inr ⟨node, ?_⟩
  cases ignoreIdle with
  | false => exact ht
  | true => exact (OrderedSet.mem_filter.mp ht).1

/-- **Refinement** of `balance`: after the threads have been pinned, it moves threads that are
listed. -/
theorem moves_balance
    (h : strategy.balance T settings perfTable fuel ignoreIdle children s = some r) :
    Runs (System.perform T strategy.granularity)
      (System.Moves {t | (s.pinThreads T ignoreIdle children strategy.granularity).2.Listed t})
      (s.pinThreads T ignoreIdle children strategy.granularity).2 r.1 := by
  rw [balance] at h
  split_ifs at h with hnode
  · have hpin : s.pinThreads T ignoreIdle children strategy.granularity =
        s.pinThreadsNode T ignoreIdle children := by rw [granularity, if_pos hnode]; rfl
    rw [hpin]
    rcases hres : s.pinThreadsNode T ignoreIdle children with ⟨_ | _, s₁⟩
    · rw [hres] at h
      obtain rfl := Option.some.inj h
      exact .refl _
    · rw [hres] at h
      simp only [balanceNodes] at h
      split_ifs at h with hnone
      · obtain rfl := Option.some.inj h
        exact .refl _
      · exact moves_sweep hnode.symm (fun _ _ _ => listed_ofNodes) h
  · have hpin : s.pinThreads T ignoreIdle children strategy.granularity =
        s.pinThreadsCpu T ignoreIdle children := by rw [granularity, if_neg hnode]; rfl
    rw [hpin]
    rcases hres : s.pinThreadsCpu T ignoreIdle children with ⟨_ | _, s₁⟩
    · rw [hres] at h
      obtain rfl := Option.some.inj h
      exact .refl _
    · rw [hres] at h
      simp only [balanceCpus] at h
      split_ifs at h with hnone
      · obtain rfl := Option.some.inj h
        exact .refl _
      · have hkind : (Level.ofCpus T ignoreIdle : Level R).node = strategy.migrateToNodes :=
          (Bool.eq_false_iff.mpr hnode).symm
        exact moves_sweep hkind (fun _ _ _ => listed_ofCpus) h

/-! ### Accounts -/

/-- The migrations undone, and those that may be undone, are among those done. -/
def Accounted (m : MigrationState R) : Prop :=
  m.totalMigrationsUndone + m.lastMigrations.length ≤ m.totalMigrations

omit [RealT R] in
theorem Accounted.forget {m : MigrationState R} (h : Accounted m) :
    Accounted { m with lastMigrations := [] } :=
  (Nat.le_add_right _ _).trans h

section

variable (T settings)

theorem accounted_undoLastMigrations (perfTable : PerfTable R) {m : MigrationState R}
    (h : Accounted m) (onlyBadMigr : Bool) :
    Accounted (m.undoLastMigrations T settings perfTable onlyBadMigr) ∧
      (m.undoLastMigrations T settings perfTable onlyBadMigr).totalMigrations =
        m.totalMigrations := by
  have hloop : ∀ (cells : List (MigrationCell R)) (m' : MigrationState R),
      (cells.foldl (MigrationState.undo T settings perfTable onlyBadMigr) m').totalMigrationsUndone
          ≤ m'.totalMigrationsUndone + cells.length ∧
        (cells.foldl (MigrationState.undo T settings perfTable onlyBadMigr) m').totalMigrations =
          m'.totalMigrations := by
    intro cells
    induction cells with
    | nil => exact fun m' => ⟨le_rfl, rfl⟩
    | cons cell cells ih =>
      intro m'
      -- each cell is undone at most once
      obtain ⟨hundone, htotal⟩ := ih (m'.undo T settings perfTable onlyBadMigr cell)
      have hone : (m'.undo T settings perfTable onlyBadMigr cell).totalMigrationsUndone ≤
            m'.totalMigrationsUndone + 1 ∧
          (m'.undo T settings perfTable onlyBadMigr cell).totalMigrations =
            m'.totalMigrations := by
        obtain heq | heq := undo_cases T settings perfTable onlyBadMigr m' cell
        · rw [heq]
          exact ⟨Nat.le_succ _, rfl⟩
        · rw [heq]
          refine ⟨Nat.add_le_add_left ?_ _, rfl⟩
          split_ifs
          · exact le_rfl
          · exact Nat.zero_le 1
      rw [List.foldl_cons, List.length_cons]
      exact ⟨by omega, htotal.trans hone.2⟩
  obtain ⟨hundone, htotal⟩ := hloop m.lastMigrations m
  refine ⟨?_, htotal⟩
  rw [Accounted, MigrationState.undoLastMigrations, List.length_nil, htotal]
  exact hundone.trans h

theorem accounted_performMigrations (perfTable : PerfTable R) (cells : List (MigrationCell R))
    {m : MigrationState R} (h : Accounted m) :
    Accounted (MigrationState.performMigrations T settings perfTable cells m) ∧
      (MigrationState.performMigrations T settings perfTable cells m).totalMigrations ≤
        m.totalMigrations + cells.length := by
  induction cells generalizing m with
  | nil => exact ⟨h, le_rfl⟩
  | cons cell cells ih =>
    rw [MigrationState.performMigrations]
    split
    · rename_i s heq
      obtain ⟨haccounted, htotal⟩ := @ih
        { m with
          system := s
          totalMigrations := m.totalMigrations + 1
          lastMigrations := m.lastMigrations ++ [cell] } (by
            rw [Accounted, List.length_append, List.length_singleton, ← Nat.add_assoc]
            exact Nat.add_le_add_right h 1)
      rw [List.length_cons, Nat.add_comm cells.length, ← Nat.add_assoc]
      exact ⟨haccounted, htotal⟩
    · rename_i s heq
      obtain ⟨haccounted, htotal⟩ :=
        accounted_undoLastMigrations T settings perfTable (m := { m with system := s }) h false
      exact ⟨haccounted, htotal.le.trans (Nat.le_add_right _ _)⟩

/-- A call of `migrate` keeps the accounts, does as many migrations as it may plan, and keeps the
index of the period within `sys_time_values`. -/
theorem accounted_migrate (strategy : Strategy) (undoThreshold : R) (inputs : Inputs R)
    (h : Accounted st.migration) (hperiod : st.currentTimeValue ≤ 2) :
    Accounted (strategy.migrate T settings undoThreshold inputs st).migration ∧
      (strategy.Walks →
        (strategy.migrate T settings undoThreshold inputs st).migration.totalMigrations ≤
          st.migration.totalMigrations + settings.maxThreadMigrations) ∧
      (strategy.migrate T settings undoThreshold inputs st).currentTimeValue ≤ 2 := by
  have hup : timeGoUp st.currentTimeValue ≤ 2 := by
    unfold timeGoUp
    split_ifs <;> omega
  have hdown : timeGoDown st.currentTimeValue ≤ 2 := (Nat.sub_le _ 1).trans hperiod
  have hanew : Accounted (migrateAnew T settings strategy inputs st).migration ∧
      (strategy.Walks → (migrateAnew T settings strategy inputs st).migration.totalMigrations ≤
        st.migration.totalMigrations + settings.maxThreadMigrations) ∧
      (migrateAnew T settings strategy inputs st).currentTimeValue ≤ 2 := by
    rw [migrateAnew]
    split_ifs with hnegligible
    · exact ⟨h, fun _ => Nat.le_add_right _ _, hperiod⟩
    · dsimp only
      split
      · exact ⟨h.forget, fun _ => Nat.le_add_right _ _, hperiod⟩
      · rename_i migrations hmigrations
        obtain ⟨haccounted, htotal⟩ :=
          accounted_performMigrations T settings inputs.perfTable migrations h.forget
        exact ⟨haccounted, fun hwalks => htotal.trans
          (Nat.add_le_add_left (length_plan_le inputs.draws hwalks hmigrations) _), hperiod⟩
  cases strategy with
  | imar2 =>
    rw [migrate, Imar2.migrate]
    split
    · exact ⟨h, fun _ => Nat.le_add_right _ _, hperiod⟩
    · exact ⟨h, fun _ => Nat.le_add_right _ _, hperiod⟩
    · obtain ⟨haccounted, htotal⟩ :=
        accounted_undoLastMigrations T settings inputs.perfTable h true
      exact ⟨haccounted, fun _ => htotal.le.trans (Nat.le_add_right _ _), hup⟩
    · obtain ⟨haccounted, htotal⟩ := accounted_performMigrations T settings inputs.perfTable
        (Imar2.performMigrationAlgorithm (Imar2.globals T settings inputs.perfTable st)) h.forget
      refine ⟨haccounted, fun hwalks => htotal.trans (Nat.add_le_add_left ?_ _), ?_⟩
      · exact length_plan_le inputs.draws hwalks rfl
      · dsimp only
        split_ifs
        · exact hup
        · exact hdown
  | lbma | cimar | nimar | random | rm3d | annealingNode => exact hanew

end

/-! ### Reachable states -/

/-- The states that are reached by calls of `migrate` and `balance`, and by the operations with
which the processes are updated, in whatever order, with the number of calls of `migrate`. -/
inductive Reachable (T : Topology) (settings : Settings R) (undoThreshold : R)
    (strategy : Strategy) (root : Pid) (infos : Pid → ProcInfo R) (kernel : Kernel) :
    Imar2.State R → ℕ → Prop
  | start : Reachable T settings undoThreshold strategy root infos kernel
      ⟨⟨.boot T root infos kernel, [], 0, 0⟩, performanceInvalidValue, 0⟩ 0
  | migrate {st : Imar2.State R} {n : ℕ} (inputs : Inputs R)
      (h : Reachable T settings undoThreshold strategy root infos kernel st n) :
      Reachable T settings undoThreshold strategy root infos kernel
        (strategy.migrate T settings undoThreshold inputs st) (n + 1)
  | balance {st : Imar2.State R} {n : ℕ} {perfTable : PerfTable R} {fuel : ℕ} {ignoreIdle : Bool}
      {children : List Pid} {r : LoopState R}
      (h : Reachable T settings undoThreshold strategy root infos kernel st n)
      (hr : strategy.balance T settings perfTable fuel ignoreIdle children st.migration.system =
        some r) :
      Reachable T settings undoThreshold strategy root infos kernel
        { st with migration := { st.migration with system := r.1 } } n
  | update {st : Imar2.State R} {n : ℕ} (op : Op R)
      (h : Reachable T settings undoThreshold strategy root infos kernel st n) :
      Reachable T settings undoThreshold strategy root infos kernel
        { st with migration := { st.migration with
          system := System.perform T strategy.granularity st.migration.system op } } n

variable {root : Pid} {infos : Pid → ProcInfo R} {kernel : Kernel} {n : ℕ}

/-- What holds in every state that is reached. -/
structure Sound (T : Topology) (settings : Settings R) (strategy : Strategy) (st : Imar2.State R)
    (n : ℕ) : Prop where
  coherent : ∀ t, Coherent T st.migration.system t strategy.granularity
  /-- The migrations that may be undone are of the kind of the strategy. -/
  kind : CellsMove strategy Set.univ st.migration.lastMigrations
  accounted : Accounted st.migration
  total_le : strategy.Walks → st.migration.totalMigrations ≤ n * settings.maxThreadMigrations
  period_le : st.currentTimeValue ≤ 2

theorem sound_of_reachable
    (h : Reachable T settings undoThreshold strategy root infos kernel st n) :
    Sound T settings strategy st n := by
  induction h with
  | start =>
    exact ⟨fun t => coherent_boot, cellsMove_nil, le_rfl, fun _ => Nat.zero_le _, Nat.zero_le 2⟩
  | migrate inputs h ih =>
    obtain ⟨hruns, hkind⟩ := moves_migrate T settings undoThreshold inputs
      (fun _ => ih.kind) fun t _ => Set.mem_univ t
    obtain ⟨haccounted, htotal, hperiod⟩ :=
      accounted_migrate T settings strategy undoThreshold inputs ih.accounted ih.period_le
    refine ⟨fun t => (ih.coherent t).of_runsOn (hruns.mono fun _ hop => hop.namesOnly),
      hkind ih.kind, haccounted, fun hwalks => ?_, hperiod⟩
    rw [Nat.add_mul, Nat.one_mul]
    exact (htotal hwalks).trans (Nat.add_le_add_right (ih.total_le hwalks) _)
  | @balance st n perfTable fuel ignoreIdle children r h hr ih =>
    -- a call of `balance` pins the threads before it moves them
    have hpin : System.RunsOn T strategy.granularity Set.univ st.migration.system
        (st.migration.system.pinThreads T ignoreIdle children strategy.granularity).2 :=
      .pinThreads (Set.mem_univ _) fun t _ => Set.mem_univ t
    have hmoves := (moves_balance hr).mono fun op hop => System.namesOnly_univ op
    exact ⟨fun t => (ih.coherent t).of_runsOn (hpin.trans hmoves), ih.kind, ih.accounted,
      ih.total_le, ih.period_le⟩
  | @update st n op h ih =>
    have hruns : System.RunsOn T strategy.granularity Set.univ st.migration.system
        (System.perform T strategy.granularity st.migration.system op) :=
      .single (System.namesOnly_univ op)
    exact ⟨fun t => (ih.coherent t).of_runsOn hruns, ih.kind, ih.accounted, ih.total_le,
      ih.period_le⟩

/-- **Placement.** In every state that is reached, whatever the strategy, the tables and the draws
are, and whatever the affinity calls answer, the placement is coherent at the granularity of the
strategy. -/
theorem coherent_of_reachable
    (h : Reachable T settings undoThreshold strategy root infos kernel st n) (t : Pid) :
    Coherent T st.migration.system t strategy.granularity :=
  (sound_of_reachable h).coherent t

/-- What LBMA reads of the thread of `foreignThread`. -/
def foreignInputs : Inputs ℚ :=
  ⟨foreignThread.perfTable, 2, zeroDraws⟩

/-- The state before the first call, with a kernel that grants all affinity calls. -/
def beforeFirst : Imar2.State ℚ :=
  ⟨⟨.boot foreignThread.topology 1 (fun pid => ⟨none, decide (pid ≠ 1), false, ⟨'R', 0, 0, 1⟩⟩)
    ⟨fun _ => true, 0, fun _ => {0, 1}, {0, 1}⟩, [], 0, 0⟩, performanceInvalidValue, 0⟩

/-- The state after it. -/
def afterFirst : Imar2.State ℚ :=
  lbma.migrate foreignThread.topology foreignThread.settings defaultUndoThreshold foreignInputs
    beforeFirst

theorem reachable_afterFirst :
    Reachable foreignThread.topology foreignThread.settings defaultUndoThreshold lbma 1
      (fun pid => ⟨none, decide (pid ≠ 1), false, ⟨'R', 0, 0, 1⟩⟩)
      ⟨fun _ => true, 0, fun _ => {0, 1}, {0, 1}⟩ afterFirst 1 :=
  .migrate foreignInputs .start

/-- LBMA has moved the thread to CPU 1, where it is listed. -/
theorem coherent_of_reachable_afterFirst : 1 ∈ afterFirst.migration.system.cpuTidMap 1 ∧
    (afterFirst.migration.system.proc 1).pinnedProcessor = 1 := by
  have hcoherent := coherent_of_reachable reachable_afterFirst 1
  have hlisted : 1 ∈ afterFirst.migration.system.cpuTidMap 1 := by
    decide +kernel
  exact ⟨hlisted, (System.CpuCoherent.listed hcoherent 1 hlisted).2⟩

/-- **Accounts.** In every state that is reached, the migrations undone and those that may be
undone together are no more than those done; `n` calls of the strategies that walk over threads
have done at most `n` times `max_thread_migrations` of them; and the index of the period is one
of those of `sys_time_values`. -/
theorem accounted_of_reachable
    (h : Reachable T settings undoThreshold strategy root infos kernel st n) :
    st.migration.totalMigrationsUndone + st.migration.lastMigrations.length ≤
        st.migration.totalMigrations ∧
      (strategy.Walks →
        st.migration.totalMigrations ≤ n * settings.maxThreadMigrations) ∧
      st.currentTimeValue < 3 :=
  have hsound := sound_of_reachable h
  ⟨hsound.accounted, hsound.total_le, Nat.lt_succ_of_le hsound.period_le⟩

/-- LBMA has done one migration, which may be undone. -/
theorem accounted_of_reachable_afterFirst : afterFirst.migration.totalMigrations = 1 ∧
    afterFirst.migration.lastMigrations.length = 1 ∧
      afterFirst.migration.totalMigrationsUndone = 0 := by
  have htotal : afterFirst.migration.totalMigrations = 1 ∧
      afterFirst.migration.lastMigrations.length = 1 := by
    decide +kernel
  have haccounted := (accounted_of_reachable reachable_afterFirst).1
  exact ⟨htotal.1, htotal.2, by omega⟩

end Strategy

end Thanos
