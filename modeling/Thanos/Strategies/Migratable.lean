import Thanos.Strategies.Annealing
import Thanos.Strategies.CpuStrategies
import Thanos.Strategies.Nimar

/-!
# Migratable threads in the plans of all strategies

Partners of an interchange are migratable in every strategy. CIMAR and NIMAR ask the same of
the threads they start from, and the two annealing strategies of every thread that moves. IMAR2
does not ask, and LBMA and RANDOM collect the migratable threads but draw from all threads of
the performance table. Their plans name migratable threads only exactly when every other thread
that they plan for has no destination (`migratable_iff`).
-/

namespace Thanos

variable {R : Type} [RealT R]

/-- `strategy_t`. -/
inductive Strategy
  | lbma
  | cimar
  | nimar
  | imar2
  | random
  | rm3d
  | annealingNode

/-- The values drawn while a plan is made. -/
structure Draws (R : Type) where
  /-- For the threads that LBMA and RANDOM take. -/
  selection : List ℕ
  /-- For the destination and the partner that RANDOM takes for a thread. -/
  thread : Pid → Random.Draws
  /-- For the search of RM3D and annealing. -/
  search : Mapping.SearchDraws R

namespace Strategy

/-- `perform_migration_algorithm` of the strategy; the result is `none` when the draws do not
suffice. -/
def performMigrationAlgorithm (g : Globals R) (draws : Draws R) :
    Strategy → Option (List (MigrationCell R))
  | lbma => Lbma.performMigrationAlgorithm g draws.selection
  | cimar => some (Cimar.performMigrationAlgorithm g)
  | nimar => some (Nimar.performMigrationAlgorithm g)
  | imar2 => some (Imar2.performMigrationAlgorithm g)
  | random => Random.performMigrationAlgorithm g draws.selection draws.thread
  | rm3d => Mapping.performMigrationAlgorithm g (Mapping.Schedule.expectedPerf g) draws.search
  | annealingNode =>
    Mapping.performMigrationAlgorithm g (Mapping.Schedule.expectedTickets g) draws.search

/-- A thread that is not migratable has no destination when it is planned for. -/
def StraysStay (g : Globals R) (noDestination : OrderedSet Pid → Pid → Prop) (plan : Plan R)
    (tid : Pid) : Prop :=
  tid ∉ plan.migratedPids → g.system.isMigratable tid = false →
    noDestination plan.migratedPids tid

/-- What the strategies that do not ask whether a thread is migratable need. -/
def Spares (g : Globals R) (draws : Draws R) : Strategy → Prop
  | lbma => ∀ tids, g.randomTids draws.selection = some tids →
    StepsOfRun (planStep (Lbma.getMigration g)) (StraysStay g g.NoDestination) Plan.empty tids
  | imar2 =>
    StepsOfRun (planStep (Imar2.getMigration g)) (StraysStay g g.NoDestination) Plan.empty
      (Imar2.worstTids g)
  | random => ∀ tids, g.randomTids draws.selection = some tids →
    StepsOfRun (planStep fun migratedPids tid =>
        (Random.getMigration g draws.thread migratedPids tid).getD [])
      (StraysStay g (Random.NoDestination g draws.thread)) Plan.empty tids
  | cimar | nimar | rm3d | annealingNode => True

variable {g : Globals R} {getMigration : Candidates R} {worstTids : List Pid}

/-- A walk whose candidates are partnered plans migratable threads only exactly when the other
threads that it plans for have no destination. -/
theorem migratable_iff_straysStay {noDestination : OrderedSet Pid → Pid → Prop}
    (hpart : ∀ migratedPids tid, ∀ cell ∈ getMigration migratedPids tid,
      Partnered g migratedPids tid cell)
    (hnil : ∀ migratedPids tid, getMigration migratedPids tid = [] ↔
      noDestination migratedPids tid) :
    (∀ t ∈ planTids (getMigrationList getMigration worstTids),
        g.system.isMigratable t = true) ↔
      StepsOfRun (planStep getMigration) (StraysStay g noDestination) Plan.empty worstTids := by
  have hcells : ∀ tid ∈ worstTids, ∀ migratedPids, ∀ cell ∈ getMigration migratedPids tid,
      tid ∈ cell.tids ∧ ∀ t ∈ cell.tids, t = tid ∨ g.system.isMigratable t = true :=
    fun tid _ migratedPids cell hcell => (hpart migratedPids tid cell hcell).tids
  refine (forall_getMigrationList_iff hcells).trans (stepsOfRun_congr fun plan tid => ?_)
  simp only [NoStray, StraysStay, Bool.not_eq_true, hnil]

/-- **Migratable threads.** A plan names migratable threads only exactly when, in LBMA, IMAR2
and RANDOM, every thread that is not migratable and is planned for has no destination. -/
theorem migratable_iff (strategy : Strategy) (g : Globals R) (draws : Draws R)
    {cells : List (MigrationCell R)}
    (h : strategy.performMigrationAlgorithm g draws = some cells) :
    (∀ t ∈ planTids cells, g.system.isMigratable t = true) ↔ strategy.Spares g draws := by
  cases strategy with
  | lbma =>
    obtain ⟨tids, htids, rfl⟩ := Option.map_eq_some_iff.mp h
    simp only [Spares, htids, Option.some.injEq, forall_eq']
    exact migratable_iff_straysStay (fun _ _ _ hcell => Lbma.partnered hcell)
      fun _ _ => candidatesWithoutGain_eq_nil
  | imar2 =>
    obtain rfl := Option.some.inj h
    exact migratable_iff_straysStay (fun _ _ _ hcell => Imar2.partnered hcell)
      fun _ _ => candidatesWithoutGain_eq_nil
  | random =>
    obtain ⟨tids, htids, htry⟩ := Option.bind_eq_some_iff.mp h
    have hpart : ∀ migratedPids tid,
        ∀ cell ∈ (Random.getMigration g draws.thread migratedPids tid).getD [],
          Partnered g migratedPids tid cell := by
      intro migratedPids tid cell hcell
      cases hmigr : Random.getMigration g draws.thread migratedPids tid with
      | none => simp [hmigr] at hcell
      | some migr =>
        rw [hmigr, Option.getD_some] at hcell
        exact Random.partnered hmigr hcell
    simp only [Spares, htids, Option.some.injEq, forall_eq']
    rw [getMigrationList_of_try htry]
    exact migratable_iff_straysStay hpart fun _ _ => Random.getMigration_eq_nil
  | cimar =>
    obtain rfl := Option.some.inj h
    exact iff_of_true Cimar.migratable_of_plan trivial
  | nimar =>
    obtain rfl := Option.some.inj h
    exact iff_of_true Nimar.migratable_of_plan trivial
  | rm3d =>
    exact iff_of_true (Mapping.migratable_of_plan (Mapping.keepsThreads_expectedPerf g) h) trivial
  | annealingNode =>
    exact iff_of_true (Mapping.migratable_of_plan (Mapping.keepsThreads_expectedTickets g) h)
      trivial

/-- Two nodes with one CPU each. Thread 1 belongs to another user; it runs on CPU 0, its pin was
refused, and it uses half as much CPU time as its process does on average. -/
def foreignThread : Globals ℚ where
  topology := Topology.regular 2 1 Nat.two_pos Nat.one_pos
  settings := Settings.default 1 64
  perfTable := ⟨[(1, ⟨Rm3d.new (Settings.default 1 64), true⟩)], fun _ => 1, fun _ => 2,
    fun _ _ => 1⟩
  system := System.boot (Topology.regular 2 1 Nat.two_pos Nat.one_pos) 1
    (fun pid => ⟨none, decide (pid ≠ 1), false, ⟨'R', 0, 0, 1⟩⟩)
    ⟨fun _ => false, 1, fun _ => {0, 1}, {0, 1}⟩

/-- All draws give 0. -/
def zeroDraws : Draws ℚ :=
  ⟨[0], fun _ => ⟨0, 0, fun _ => 0⟩, ⟨[], []⟩⟩

/-- The three strategies plan the foreign thread, which has a free CPU to go to. -/
theorem exists_foreignPlan : ∀ strategy ∈ [lbma, imar2, random],
    ∃ cells, strategy.performMigrationAlgorithm foreignThread zeroDraws = some cells ∧
      planTids cells = [1] := by
  have hplan : ∀ strategy ∈ [lbma, imar2, random],
      (strategy.performMigrationAlgorithm foreignThread zeroDraws).map planTids = some [1] := by
    decide +kernel
  exact fun strategy hmem => Option.map_eq_some_iff.mp (hplan strategy hmem)

/-- The foreign thread has a destination in all three strategies. -/
theorem migratable_iff_foreignThread :
    ¬ lbma.Spares foreignThread zeroDraws ∧ ¬ imar2.Spares foreignThread zeroDraws ∧
      ¬ random.Spares foreignThread zeroDraws := by
  have hstray : ∀ strategy ∈ [lbma, imar2, random], ¬ strategy.Spares foreignThread zeroDraws := by
    intro strategy hmem hspares
    obtain ⟨cells, hcells, htids⟩ := exists_foreignPlan strategy hmem
    have hall := (migratable_iff strategy foreignThread zeroDraws hcells).mpr hspares
    rw [htids] at hall
    exact absurd (hall 1 List.mem_cons_self) (by decide +kernel)
  exact ⟨hstray lbma (by simp), hstray imar2 (by simp), hstray random (by simp)⟩

/-- A plan of IMAR2 names a thread that is not migratable. -/
theorem not_migratable :
    ¬ ∀ (strategy : Strategy) (g : Globals ℚ) (draws : Draws ℚ) (cells : List (MigrationCell ℚ)),
      strategy.performMigrationAlgorithm g draws = some cells →
      ∀ t ∈ planTids cells, g.system.isMigratable t = true := by
  intro h
  obtain ⟨cells, hcells, htids⟩ := exists_foreignPlan imar2 (by simp)
  have hone : (1 : Pid) ∈ planTids cells := by
    rw [htids]
    exact List.mem_cons_self
  exact absurd (h imar2 foreignThread zeroDraws cells hcells 1 hone) (by decide +kernel)

end Strategy

end Thanos
