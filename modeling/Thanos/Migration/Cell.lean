import Thanos.Library.Run
import Thanos.Migration.Performance

/-!
# Migration cells

A simple cell moves one thread to a CPU or a node; a cell is a list of simple cells, one for a
plain move and two for an interchange. `MigrationState` adds to the system the cells migrated
last, which `undo_last_migrations` takes back. `performMigrations` is the loop with which every
strategy carries out its plan: the first cell that fails makes it undo the earlier ones.
-/

namespace Thanos

/-- `simple_migration_cell`. -/
structure SimpleMigrationCell (R : Type) where
  /-- Thread to migrate. -/
  tid : Pid
  /-- PID of the thread. -/
  pid : Pid
  /-- Destination, a CPU or a node. -/
  dest : ℕ
  /-- Previous CPU or node. -/
  prev : ℕ
  /-- It is a migration at node level. -/
  node : Bool
  /-- Previous performance. -/
  prevPerf : R

/-- `migration_cell`. -/
structure MigrationCell (R : Type) where
  migrations : List (SimpleMigrationCell R)
  tickets : Tickets R

variable {R : Type} (T : Topology)

namespace SimpleMigrationCell

/-- `simple_migration_cell::swap`. -/
def swap (m : SimpleMigrationCell R) : SimpleMigrationCell R :=
  { m with prev := m.dest, dest := m.prev }

/-- `simple_migration_cell::migrate`. -/
def migrate (m : SimpleMigrationCell R) (s : System R) : Bool × System R :=
  if m.node then s.pinThreadToNode T m.tid m.dest else s.pinThreadToCpu T m.tid m.dest

@[simp] theorem swap_tid (m : SimpleMigrationCell R) : m.swap.tid = m.tid := rfl

@[simp] theorem swap_node (m : SimpleMigrationCell R) : m.swap.node = m.node := rfl

@[simp] theorem swap_dest (m : SimpleMigrationCell R) : m.swap.dest = m.prev := rfl

/-- A simple cell touches no thread but its own. -/
theorem migrate_sameThread {m : SimpleMigrationCell R} {s : System R} {t : Pid}
    (h : t ≠ m.tid) : System.SameThread s (m.migrate T s).2 t := by
  unfold migrate
  split
  · exact System.pinThreadToNode_sameThread h
  · exact System.pinThreadToCpu_sameThread h

end SimpleMigrationCell

namespace MigrationCell

/-- `migration_cell::migrate`: every half is tried, also after one has failed. -/
def migrate (cell : MigrationCell R) (s : System R) : Bool × System R :=
  forEach (SimpleMigrationCell.migrate T) cell.migrations s

/-- Every half of a cell is swapped. -/
def swap (cell : MigrationCell R) : MigrationCell R :=
  { cell with migrations := cell.migrations.map SimpleMigrationCell.swap }

/-- `tids_involved`. -/
def tidsInvolved (cell : MigrationCell R) : OrderedSet Pid :=
  OrderedSet.insertMany ∅ (cell.migrations.map SimpleMigrationCell.tid)

/-- `balance`: the gain in performance, where an invalid value counts as none. -/
def balance [RealT R] (cell : MigrationCell R) (newPerfs : List R) : R :=
  let valid (perf : R) : R := if perf == performanceInvalidValue then RealT.ofRat 0 else perf
  (cell.migrations.zip newPerfs).foldl
    (fun balance (migr, newPerf) => balance + (valid newPerf - valid migr.prevPerf))
    (RealT.ofRat 0)

end MigrationCell

/-- The simple cells of a list of cells. -/
def halves (cells : List (MigrationCell R)) : List (SimpleMigrationCell R) :=
  cells.flatMap MigrationCell.migrations

/-- Cells are migrated one after another. -/
def migrateCells (cells : List (MigrationCell R)) (s : System R) : Bool × System R :=
  forEach (MigrationCell.migrate T) cells s

/-- The system and the globals of `migration::thread` that a migration changes. -/
structure MigrationState (R : Type) where
  system : System R
  lastMigrations : List (MigrationCell R)
  totalMigrations : ℕ
  totalMigrationsUndone : ℕ

namespace MigrationState

variable [RealT R] (settings : Settings R) (perfTable : PerfTable R)

/-- The body of the loop of `undo_last_migrations`. -/
def undo (onlyBadMigr : Bool) (m : MigrationState R) (cell : MigrationCell R) :
    MigrationState R :=
  let perfs := if onlyBadMigr then
    cell.migrations.map fun migr => perfTable.performance settings m.system migr.tid else []
  if !onlyBadMigr || decide (cell.balance perfs < RealT.ofRat 0) then
    match cell.swap.migrate T m.system with
    | (true, s) => { m with system := s, totalMigrationsUndone := m.totalMigrationsUndone + 1 }
    | (false, s) => { m with system := s }
  else m

/-- `undo_last_migrations`. -/
def undoLastMigrations (onlyBadMigr : Bool) (m : MigrationState R) : MigrationState R :=
  { m.lastMigrations.foldl (undo T settings perfTable onlyBadMigr) m with lastMigrations := [] }

/-- The loop of `migrate` over the planned cells. -/
def performMigrations : List (MigrationCell R) → MigrationState R → MigrationState R
  | [], m => m
  | cell :: cells, m =>
    match cell.migrate T m.system with
    | (true, s) =>
      performMigrations cells
        { m with
          system := s
          totalMigrations := m.totalMigrations + 1
          lastMigrations := m.lastMigrations ++ [cell] }
    | (false, s) => undoLastMigrations T settings perfTable false { m with system := s }

end MigrationState

/-! ### Cells as runs of their halves -/

/-- The system after some halves have been migrated. -/
abbrev afterHalves (ms : List (SimpleMigrationCell R)) (s : System R) : System R :=
  run (fun s m => (SimpleMigrationCell.migrate T m s).2) s ms

variable {T} {s : System R} {t : Pid} {ms : List (SimpleMigrationCell R)}
  {cells : List (MigrationCell R)}

theorem migrate_snd {cell : MigrationCell R} :
    (cell.migrate T s).2 = afterHalves T cell.migrations s :=
  forEach_snd

theorem migrateCells_cons {cell : MigrationCell R} :
    migrateCells T (cell :: cells) s =
      ((cell.migrate T s).1 && (migrateCells T cells (cell.migrate T s).2).1,
        (migrateCells T cells (cell.migrate T s).2).2) :=
  forEach_cons

/-- Migrating cells is migrating their halves. -/
theorem migrateCells_eq :
    migrateCells T cells s = forEach (SimpleMigrationCell.migrate T) (halves cells) s :=
  forEach_flatMap MigrationCell.migrations cells

theorem migrateCells_snd : (migrateCells T cells s).2 = afterHalves T (halves cells) s := by
  rw [migrateCells_eq, forEach_snd]

/-- Threads that are not named are not touched. -/
theorem afterHalves_sameThread (h : t ∉ ms.map SimpleMigrationCell.tid) :
    System.SameThread s (afterHalves T ms s) t :=
  run_frame (E := fun s s' => System.SameThread s s' t)
    (fun s => System.SameThread.refl s t) (fun _ _ _ h h' => h.trans h')
    (fun _ _ h => SimpleMigrationCell.migrate_sameThread T h) h

/-- Where threads are named once, the effect of some halves on the thread of one of them is
that of this half, performed from a state with the same thread. -/
theorem afterHalves_isolated {pre post : List (SimpleMigrationCell R)}
    {m : SimpleMigrationCell R}
    (hdisj : ((pre ++ m :: post).map SimpleMigrationCell.tid).Nodup) :
    System.SameThread s (afterHalves T pre s) m.tid ∧
      System.SameThread (m.migrate T (afterHalves T pre s)).2
        (afterHalves T (pre ++ m :: post) s) m.tid := by
  rw [List.map_append, List.map_cons, List.nodup_middle, List.nodup_cons, List.mem_append,
    not_or] at hdisj
  obtain ⟨⟨hpre, hpost⟩, -⟩ := hdisj
  refine ⟨afterHalves_sameThread hpre, ?_⟩
  have hsplit : afterHalves T (pre ++ m :: post) s =
      afterHalves T post (m.migrate T (afterHalves T pre s)).2 := by
    simp only [afterHalves, run_append, run_cons]
  rw [hsplit]
  exact afterHalves_sameThread hpost

theorem halves_append_cons {pre post : List (MigrationCell R)} {cell : MigrationCell R} :
    halves (pre ++ cell :: post) = halves pre ++ cell.migrations ++ halves post := by
  simp [halves]

theorem halves_swap :
    halves (cells.map MigrationCell.swap) = (halves cells).map SimpleMigrationCell.swap := by
  induction cells with
  | nil => rfl
  | cons cell cells ih =>
    have hcons : halves (cell :: cells) = cell.migrations ++ halves cells := rfl
    rw [hcons, List.map_append, ← ih]
    rfl

theorem map_tid_swap :
    (ms.map SimpleMigrationCell.swap).map SimpleMigrationCell.tid =
      ms.map SimpleMigrationCell.tid := by
  rw [List.map_map]
  rfl

section Undo

variable [RealT R] {settings : Settings R} {perfTable : PerfTable R} {m : MigrationState R}

/-- Undoing all last migrations migrates the swapped cells. -/
theorem undoLastMigrations_system :
    (m.undoLastMigrations T settings perfTable false).system =
      afterHalves T ((halves m.lastMigrations).map SimpleMigrationCell.swap) m.system := by
  rw [← halves_swap, ← migrateCells_snd]
  have hfold : ∀ (cells : List (MigrationCell R)) (m : MigrationState R),
      (cells.foldl (MigrationState.undo T settings perfTable false) m).system =
        (migrateCells T (cells.map MigrationCell.swap) m.system).2 := by
    intro cells
    induction cells with
    | nil => exact fun m => rfl
    | cons cell cells ih =>
      intro m
      rw [List.foldl_cons, ih, List.map_cons, migrateCells_cons]
      rcases hmig : cell.swap.migrate T m.system with ⟨_ | _, s'⟩
      · simp [MigrationState.undo, hmig]
      · simp [MigrationState.undo, hmig]
  exact hfold m.lastMigrations m

/-- A plan whose first cells succeed goes on with the others, the first ones recorded. -/
theorem performMigrations_append {pre : List (MigrationCell R)} (post : List (MigrationCell R))
    (hpre : (migrateCells T pre m.system).1 = true) :
    m.performMigrations T settings perfTable (pre ++ post) =
      MigrationState.performMigrations T settings perfTable post
        { m with
          system := (migrateCells T pre m.system).2
          totalMigrations := m.totalMigrations + pre.length
          lastMigrations := m.lastMigrations ++ pre } := by
  induction pre generalizing m with
  | nil => simp [migrateCells]
  | cons cell pre ih =>
    rw [migrateCells_cons, Bool.and_eq_true] at hpre
    obtain ⟨hcell, hpre⟩ := hpre
    rcases hmig : cell.migrate T m.system with ⟨ok, s'⟩
    rw [hmig] at hcell hpre
    obtain rfl : ok = true := hcell
    have hstep : m.performMigrations T settings perfTable (cell :: pre ++ post) =
        MigrationState.performMigrations T settings perfTable (pre ++ post)
          { m with
            system := s'
            totalMigrations := m.totalMigrations + 1
            lastMigrations := m.lastMigrations ++ [cell] } := by
      simp only [List.cons_append, MigrationState.performMigrations, hmig]
    rw [hstep, ih hpre, migrateCells_cons, hmig, List.length_cons, List.append_assoc,
      List.singleton_append, Nat.add_assoc, Nat.add_comm 1]

end Undo

end Thanos
