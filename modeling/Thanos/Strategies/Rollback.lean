import Thanos.Strategies.CpuStrategies
import Thanos.SystemInfo.PlacementRuns

/-!
# The rollback of IMAR2

Before it plans, IMAR2 compares the total performance with the last one, and the performance of
the threads migrated last with that recorded for them. If it is much worse, or if the last
migrations were a loss, it undoes them and plans nothing. The profit of the last migrations is
the sum of the ratios of the performances, not of the improvements, and so never a loss
(`compareLastMigrations_nonneg`): only the first reason counts (`migrate_undo_iff`).
-/

namespace Thanos

variable {R : Type} [RealT R]

/-- `compare_last_migrations`. -/
def Globals.compareLastMigrations (g : Globals R) (lastMigrations : List (MigrationCell R)) : R :=
  lastMigrations.foldl (fun total migrs =>
    migrs.migrations.foldl (fun total migr =>
      total + g.performance migr.tid / migr.prevPerf) total) (RealT.ofRat 0)

/-- `performance::NEGLIGIBLE_PERFORMANCE`. -/
def negligiblePerformance : R :=
  RealT.ofRat (1 / 1000)

/-- `DEFAULT_UNDO_THRESHOLD`. -/
def defaultUndoThreshold : R :=
  RealT.ofRat (9 / 10)

/-- `time_go_up`. -/
def timeGoUp (currentTimeValue : ℕ) : ℕ :=
  if 3 ≤ currentTimeValue + 1 then 2 else currentTimeValue + 1

/-- `time_go_down`. -/
def timeGoDown (currentTimeValue : ℕ) : ℕ :=
  currentTimeValue - 1

namespace Imar2

/-- The globals that `migrate` changes. -/
structure State (R : Type) where
  migration : MigrationState R
  lastPerformance : R
  /-- `current_time_value`, an index into `sys_time_values`. -/
  currentTimeValue : ℕ

/-- The branches of `migrate`. -/
inductive Course
  /-- No performance obtained, so no suitable threads. -/
  | negligible
  /-- First time or no data. -/
  | noData
  /-- Undo the last migrations. -/
  | undo
  /-- Get the list of migrations to perform. -/
  | plan
  deriving DecidableEq

variable (T : Topology) (settings : Settings R) (perfTable : PerfTable R)
  (totalPerformance undoThreshold : R) (st : State R)

/-- The tables that the strategy reads. -/
abbrev globals : Globals R :=
  ⟨T, settings, perfTable, st.migration.system⟩

/-- The branch that `migrate` takes. -/
def course : Course :=
  let lastMigrProfit :=
    (globals T settings perfTable st).compareLastMigrations st.migration.lastMigrations
  if totalPerformance < negligiblePerformance then .negligible
  else
    let diff := totalPerformance / st.lastPerformance
    if diff < RealT.ofRat 0 ∨ (diff == RealT.ofRat 0) = true then .noData
    else if st.migration.lastMigrations.isEmpty = false ∧
        (diff < undoThreshold ∨ lastMigrProfit < RealT.ofRat 0 ∧ diff < RealT.ofRat 1) then .undo
    else .plan

/-- `migrate`, with the branch taken. -/
def migrate : Course × State R :=
  match course T settings perfTable totalPerformance undoThreshold st with
  | .negligible => (.negligible, { st with lastPerformance := performanceInvalidValue })
  | .noData => (.noData, { st with lastPerformance := totalPerformance })
  | .undo =>
    (.undo,
      { migration := st.migration.undoLastMigrations T settings perfTable true
        lastPerformance := totalPerformance
        currentTimeValue := timeGoUp st.currentTimeValue })
  | .plan =>
    let migrations := performMigrationAlgorithm (globals T settings perfTable st)
    (.plan,
      { migration := MigrationState.performMigrations T settings perfTable migrations
          { st.migration with lastMigrations := [] }
        lastPerformance := totalPerformance
        currentTimeValue :=
          if totalPerformance / st.lastPerformance < RealT.ofRat 1 then
            timeGoUp st.currentTimeValue
          else timeGoDown st.currentTimeValue })

variable {T settings perfTable totalPerformance undoThreshold st}

theorem migrate_fst :
    (migrate T settings perfTable totalPerformance undoThreshold st).1 =
      course T settings perfTable totalPerformance undoThreshold st := by
  unfold migrate
  split
  · rename_i hcourse
    exact hcourse.symm
  · rename_i hcourse
    exact hcourse.symm
  · rename_i hcourse
    exact hcourse.symm
  · rename_i hcourse
    exact hcourse.symm

section Exact

variable {g : Globals ℚ} {lastMigrations : List (MigrationCell ℚ)}

/-- The profit is a sum over the threads migrated last. -/
theorem compareLastMigrations_eq :
    g.compareLastMigrations lastMigrations =
      (halves lastMigrations).foldl (fun total migr =>
        total + g.performance migr.tid / migr.prevPerf) 0 := by
  rw [halves, List.foldl_flatMap]
  rfl

/-- The profit of migrations of threads with a positive performance is not negative, also if
all of them are slower than before. -/
theorem compareLastMigrations_nonneg
    (hprev : ∀ migr ∈ halves lastMigrations, 0 < migr.prevPerf)
    (hperf : ∀ migr ∈ halves lastMigrations, 0 < g.performance migr.tid) :
    0 ≤ g.compareLastMigrations lastMigrations := by
  rw [compareLastMigrations_eq]
  refine run_invariant_of_mem (I := fun total : ℚ => 0 ≤ total) le_rfl
    fun total migr hmigr htotal => ?_
  have hratio : 0 ≤ g.performance migr.tid / migr.prevPerf :=
    div_nonneg (hperf migr hmigr).le (hprev migr hmigr).le
  exact add_nonneg htotal hratio

variable {T : Topology} {settings : Settings ℚ} {perfTable : PerfTable ℚ}
  {totalPerformance undoThreshold : ℚ} {st : State ℚ}

/-- If there are migrations to undo, all performances are positive and the total performance is
not compared with an invalid one, then the last migrations are undone exactly when the total
performance is not negligible and its ratio to the last one is below the threshold. -/
theorem migrate_undo_iff (hlast : st.migration.lastMigrations ≠ [])
    (hprev : ∀ migr ∈ halves st.migration.lastMigrations, 0 < migr.prevPerf)
    (hperf : ∀ migr ∈ halves st.migration.lastMigrations,
      0 < perfTable.performance settings st.migration.system migr.tid)
    (hdiff : 0 < totalPerformance / st.lastPerformance) :
    (migrate T settings perfTable totalPerformance undoThreshold st).1 = .undo ↔
      1 / 1000 ≤ totalPerformance ∧ totalPerformance / st.lastPerformance < undoThreshold := by
  have hprofit : ¬ (globals T settings perfTable st).compareLastMigrations
      st.migration.lastMigrations < RealT.ofRat 0 :=
    not_lt.mpr (compareLastMigrations_nonneg hprev hperf)
  have hdata : ¬ (totalPerformance / st.lastPerformance < RealT.ofRat 0 ∨
      (totalPerformance / st.lastPerformance == RealT.ofRat 0) = true) := by
    rw [beq_iff_eq, not_or]
    exact ⟨not_lt.mpr hdiff.le, hdiff.ne'⟩
  have hempty : st.migration.lastMigrations.isEmpty = false := List.isEmpty_eq_false_iff.mpr hlast
  rw [migrate_fst, course]
  simp only [hprofit, hdata, hempty, false_and, or_false, true_and, if_false]
  by_cases hnegligible : totalPerformance < negligiblePerformance
  · rw [if_pos hnegligible]
    exact iff_of_false (by simp) fun h => absurd hnegligible (not_lt.mpr h.1)
  · have hsome : 1 / 1000 ≤ totalPerformance := not_lt.mp hnegligible
    rw [if_neg hnegligible, and_iff_right hsome]
    split_ifs with hmuch
    · exact iff_of_true rfl hmuch
    · exact iff_of_false (by simp) hmuch

/-- Thread 1 has a performance of 9 on every node. -/
def slowTable : PerfTable ℚ :=
  ⟨[(1, ⟨{ Rm3d.new (Settings.default 1 64) with perfs := fun _ => 9 }, true⟩)],
    fun _ => 1, fun _ => 1, fun _ _ => 1⟩

/-- Thread 1 was moved to CPU 1 when its performance was 10 and that of all threads 100. -/
def movedOnce : State ℚ where
  migration :=
    { system := .boot (.regular 2 1 Nat.two_pos Nat.one_pos) 1
        (fun _ => ⟨none, true, false, ⟨'R', 0, 0, 1⟩⟩) ⟨fun _ => true, 0, fun _ => {0, 1}, {0, 1}⟩
      lastMigrations := [⟨[⟨1, 1, 1, 0, false, 10⟩], ⟨2, 8⟩⟩]
      totalMigrations := 1
      totalMigrationsUndone := 0 }
  lastPerformance := 100
  currentTimeValue := 0

theorem movedOnce_slower :
    ∀ migr ∈ halves movedOnce.migration.lastMigrations, 0 < migr.prevPerf ∧
      0 < slowTable.performance (.default 1 64) movedOnce.migration.system migr.tid ∧
      slowTable.performance (.default 1 64) movedOnce.migration.system migr.tid <
        migr.prevPerf := by
  decide +kernel

/-- A total performance of 80 is much worse. -/
theorem migrate_undo_iff_movedOnce :
    (migrate (.regular 2 1 Nat.two_pos Nat.one_pos) (.default 1 64) slowTable 80
      defaultUndoThreshold movedOnce).1 = .undo := by
  refine (migrate_undo_iff (by decide +kernel) (fun migr hmigr => (movedOnce_slower migr hmigr).1)
    (fun migr hmigr => (movedOnce_slower migr hmigr).2.1) (by decide +kernel)).mpr ?_
  decide +kernel

/-- A total performance of 95 is not, and the loss of thread 1 is counted as a profit. -/
theorem not_migrate_undo :
    ¬ ∀ (T : Topology) (settings : Settings ℚ) (perfTable : PerfTable ℚ) (totalPerformance : ℚ)
      (st : State ℚ), st.migration.lastMigrations ≠ [] →
      (∀ migr ∈ halves st.migration.lastMigrations, 0 < migr.prevPerf ∧
        0 < perfTable.performance settings st.migration.system migr.tid ∧
        perfTable.performance settings st.migration.system migr.tid < migr.prevPerf) →
      0 < totalPerformance / st.lastPerformance → totalPerformance / st.lastPerformance < 1 →
      (migrate T settings perfTable totalPerformance defaultUndoThreshold st).1 = .undo := by
  intro h
  have hundo := h (.regular 2 1 Nat.two_pos Nat.one_pos) (.default 1 64) slowTable 95 movedOnce
    (by decide +kernel) movedOnce_slower (by decide +kernel) (by decide +kernel)
  exact absurd hundo (by decide +kernel)

end Exact

end Imar2

end Thanos
