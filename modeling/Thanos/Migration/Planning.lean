import Thanos.Migration.Scoring

/-!
# Planning by a walk over threads

LBMA, CIMAR, NIMAR, IMAR2 and RANDOM plan alike: they choose some threads, walk over them, and
for each thread that no earlier cell involves choose one of its candidate migrations
(`getMigrationList`). They differ in how they choose the threads and in the candidates of a
thread, which are a parameter here.

* **Trace** (`getMigrationList_eq_filterMap`): the cells of a plan are those of its steps.
* **Length** (`length_getMigrationList_le`): a plan has at most one cell for each thread.
* **Disjointness** (`nodup_getMigrationList`): if the candidates involve their own thread and
  others that are not involved yet, no thread occurs twice in the plan.
* **Members** (`forall_getMigrationList`): what holds of the candidates holds of the cells.
* **Exact conditions** (`forall_getMigrationList_iff`): if a property holds of all partners, it
  holds of all threads of the plan exactly when no thread without it has candidates when the
  walk reaches it.
-/

namespace Thanos

variable {R : Type} [RealT R]

/-- The candidate migrations of a thread, given the threads that are involved already. -/
abbrev Candidates (R : Type) :=
  OrderedSet Pid → Pid → List (MigrationCell R)

/-- The state of the loop of `get_migration_list`. -/
structure Plan (R : Type) where
  /-- `migrated_pids_`. -/
  migratedPids : OrderedSet Pid
  migrations : List (MigrationCell R)

/-- The plan of a new strategy object. -/
def Plan.empty : Plan R :=
  ⟨∅, []⟩

/-- The best of the candidates, if there are any, is added to the plan. -/
def Plan.add (plan : Plan R) (migr : List (MigrationCell R)) : Plan R :=
  match selectMigration migr with
  | none => plan
  | some migration =>
    { migratedPids := plan.migratedPids.insertMany migration.tidsInvolved.toList
      migrations := plan.migrations ++ [migration] }

/-- The body of the loop of `get_migration_list`. -/
def planStep (getMigration : Candidates R) (plan : Plan R) (tid : Pid) : Plan R :=
  if tid ∈ plan.migratedPids then plan else plan.add (getMigration plan.migratedPids tid)

/-- `get_migration_list`. -/
def getMigrationList (getMigration : Candidates R) (worstTids : List Pid) :
    List (MigrationCell R) :=
  (run (planStep getMigration) Plan.empty worstTids).migrations

namespace Globals

variable (g : Globals R)

/-- The threads that are running and whose relative performance is valid and below the
threshold, those with the lowest performance first, cropped to `max_thread_migrations`. The
order of the table is arbitrary, and so is that of threads with the same performance. -/
def worstTidPerf (eligible : Pid → Bool) : List (R × Pid) :=
  let worst := g.perfTable.tids.filterMap fun tid =>
    let perf := g.relPerformance tid
    if eligible tid && g.perfTable.isRunning g.settings tid &&
        decide (perf < g.settings.perfThreshold) && !(perf == performanceInvalidValue) then
      some (perf, tid)
    else none
  let sorted := worst.insertionSort fun a b => ¬ b.1 < a.1
  sorted.take (min g.settings.maxThreadMigrations sorted.length)

variable {g} {eligible : Pid → Bool} {entry : R × Pid}

theorem eligible_of_mem_worstTidPerf (h : entry ∈ g.worstTidPerf eligible) :
    eligible entry.2 = true := by
  have hsorted := List.mem_of_mem_take h
  rw [(List.perm_insertionSort _ _).mem_iff, List.mem_filterMap] at hsorted
  obtain ⟨tid, -, hentry⟩ := hsorted
  simp only [Option.ite_none_right_eq_some, Bool.and_eq_true] at hentry
  obtain ⟨hcond, heq⟩ := hentry
  obtain rfl := Option.some.inj heq
  exact hcond.1.1.1

theorem length_worstTidPerf_le :
    (g.worstTidPerf eligible).length ≤ g.settings.maxThreadMigrations := by
  rw [worstTidPerf, List.length_take]
  omega

end Globals

/-! ### One step of the walk -/

variable {getMigration : Candidates R} {plan : Plan R} {tid : Pid} {worstTids : List Pid}

/-- **A step** leaves the plan alone or adds one candidate of a thread that is not involved. -/
theorem planStep_cases (getMigration : Candidates R) (plan : Plan R) (tid : Pid) :
    ((tid ∈ plan.migratedPids ∨ getMigration plan.migratedPids tid = []) ∧
      planStep getMigration plan tid = plan) ∨
    (tid ∉ plan.migratedPids ∧ ∃ migration ∈ getMigration plan.migratedPids tid,
      planStep getMigration plan tid =
        { migratedPids := plan.migratedPids.insertMany migration.tidsInvolved.toList
          migrations := plan.migrations ++ [migration] }) := by
  by_cases hmem : tid ∈ plan.migratedPids
  · exact .inl ⟨.inl hmem, if_pos hmem⟩
  · cases hsel : selectMigration (getMigration plan.migratedPids tid) with
    | none =>
      have hnil := selectMigration_eq_none.mp hsel
      exact .inl ⟨.inr hnil, by simp [planStep, Plan.add, hmem, hsel]⟩
    | some migration =>
      refine .inr ⟨hmem, migration, selectMigration_mem hsel, ?_⟩
      simp [planStep, Plan.add, hmem, hsel]

/-- The cell that a step adds to the plan, if any. -/
def planned (getMigration : Candidates R) (plan : Plan R) (tid : Pid) :
    Option (MigrationCell R) :=
  if tid ∈ plan.migratedPids then none else selectMigration (getMigration plan.migratedPids tid)

theorem planStep_migrations :
    (planStep getMigration plan tid).migrations =
      plan.migrations ++ (planned getMigration plan tid).toList := by
  unfold planStep planned
  split_ifs with hmem
  · simp
  · cases hsel : selectMigration (getMigration plan.migratedPids tid) with
    | none => simp [Plan.add, hsel]
    | some migration => simp [Plan.add, hsel]

/-- **Trace.** The cells of a plan are those of the steps of the walk, in order. -/
theorem getMigrationList_eq_filterMap :
    getMigrationList getMigration worstTids =
      (trace (planStep getMigration) Plan.empty worstTids).filterMap
        fun step => planned getMigration step.1 step.2 := by
  suffices h : ∀ plan : Plan R, (run (planStep getMigration) plan worstTids).migrations =
      plan.migrations ++ (trace (planStep getMigration) plan worstTids).filterMap
        fun step => planned getMigration step.1 step.2 from h Plan.empty
  induction worstTids with
  | nil => exact fun plan => (List.append_nil _).symm
  | cons tid worstTids ih =>
    intro plan
    rw [run_cons, ih, planStep_migrations, trace, List.filterMap_cons, List.append_assoc]
    cases planned getMigration plan tid with
    | none => rfl
    | some migration => rfl

theorem countP_getMigrationList {p : MigrationCell R → Bool} :
    (getMigrationList getMigration worstTids).countP p =
      (trace (planStep getMigration) Plan.empty worstTids).countP
        fun step => (planned getMigration step.1 step.2).any p := by
  rw [getMigrationList_eq_filterMap, List.countP_filterMap]
  congr 1
  funext step
  cases planned getMigration step.1 step.2 with
  | none => rfl
  | some migration => rfl

/-- **Length.** -/
theorem length_getMigrationList_le :
    (getMigrationList getMigration worstTids).length ≤ worstTids.length := by
  suffices h : ∀ plan : Plan R, (run (planStep getMigration) plan worstTids).migrations.length ≤
      plan.migrations.length + worstTids.length by
    simpa [getMigrationList, Plan.empty] using h Plan.empty
  induction worstTids with
  | nil => exact fun plan => le_rfl
  | cons tid worstTids ih =>
    intro plan
    have hrest := ih (planStep getMigration plan tid)
    rw [run_cons, List.length_cons]
    obtain ⟨-, heq⟩ | ⟨-, migration, -, heq⟩ := planStep_cases getMigration plan tid
    · rw [heq] at hrest ⊢
      omega
    · rw [heq, List.length_append, List.length_singleton] at hrest
      rw [heq]
      omega

/-- **Members.** A property of the candidates, whatever threads are involved already, is one of
the cells of the plan. -/
theorem forall_getMigrationList {P : MigrationCell R → Prop}
    (h : ∀ tid ∈ worstTids, ∀ migratedPids, ∀ cell ∈ getMigration migratedPids tid, P cell) :
    ∀ cell ∈ getMigrationList getMigration worstTids, P cell := by
  refine run_invariant_of_mem (I := fun plan : Plan R => ∀ cell ∈ plan.migrations, P cell)
    (by simp [Plan.empty]) fun plan tid htid hplan => ?_
  obtain ⟨-, heq⟩ | ⟨-, migration, hmem, heq⟩ := planStep_cases getMigration plan tid
  · rw [heq]
    exact hplan
  · rw [heq]
    intro cell hcell
    obtain hcell | hcell := List.mem_append.mp hcell
    · exact hplan cell hcell
    · obtain rfl := List.mem_singleton.mp hcell
      exact h tid htid _ cell hmem

/-! ### The threads of a plan -/

/-- The threads that a cell names. -/
def MigrationCell.tids (cell : MigrationCell R) : List Pid :=
  cell.migrations.map SimpleMigrationCell.tid

omit [RealT R] in
theorem mem_tidsInvolved {cell : MigrationCell R} {t : Pid} :
    t ∈ cell.tidsInvolved ↔ t ∈ cell.tids := by
  simp [MigrationCell.tidsInvolved, MigrationCell.tids]

/-- The threads that a list of cells names. -/
abbrev planTids (cells : List (MigrationCell R)) : List Pid :=
  (halves cells).map SimpleMigrationCell.tid

omit [RealT R] in
theorem planTids_concat {cells : List (MigrationCell R)} {cell : MigrationCell R} :
    planTids (cells ++ [cell]) = planTids cells ++ cell.tids := by
  simp [planTids, halves, MigrationCell.tids]

omit [RealT R] in
theorem mem_planTids {cells : List (MigrationCell R)} {t : Pid} :
    t ∈ planTids cells ↔ ∃ cell ∈ cells, t ∈ cell.tids := by
  simp only [planTids, halves, MigrationCell.tids, List.map_flatMap, List.mem_flatMap]

/-- A property of the threads of all candidates is one of the threads of the plan. -/
theorem forall_planTids {ok : Pid → Prop}
    (h : ∀ tid ∈ worstTids, ∀ migratedPids, ∀ cell ∈ getMigration migratedPids tid,
      ∀ t ∈ cell.tids, ok t) :
    ∀ t ∈ planTids (getMigrationList getMigration worstTids), ok t := by
  intro t ht
  obtain ⟨cell, hcell, ht⟩ := mem_planTids.mp ht
  exact forall_getMigrationList (P := fun cell => ∀ t ∈ cell.tids, ok t) h cell hcell t ht

/-- **Disjointness.** -/
theorem nodup_getMigrationList
    (h : ∀ tid ∈ worstTids, ∀ migratedPids, ∀ cell ∈ getMigration migratedPids tid,
      cell.tids.Nodup ∧ ∀ t ∈ cell.tids, t = tid ∨ t ∉ migratedPids) :
    (planTids (getMigrationList getMigration worstTids)).Nodup := by
  refine And.left (run_invariant_of_mem
    (I := fun plan : Plan R => (planTids plan.migrations).Nodup ∧
      ∀ t ∈ planTids plan.migrations, t ∈ plan.migratedPids)
    ⟨List.nodup_nil, fun t ht => absurd ht List.not_mem_nil⟩ fun plan tid htid hplan => ?_)
  obtain ⟨-, heq⟩ | ⟨hfresh, migration, hmem, heq⟩ := planStep_cases getMigration plan tid
  · rw [heq]
    exact hplan
  · obtain ⟨hnodup, hout⟩ := h tid htid _ migration hmem
    -- the new cell is disjoint from all earlier ones, whose threads are involved
    have hnew : ∀ t ∈ migration.tids, t ∉ plan.migratedPids := by
      intro t ht
      obtain rfl | hnot := hout t ht
      · exact hfresh
      · exact hnot
    rw [heq]
    simp only [planTids_concat]
    refine ⟨List.nodup_append.mpr ⟨hplan.1, hnodup, ?_⟩, fun t ht => ?_⟩
    · rintro t ht _ ht' rfl
      exact hnew t ht' (hplan.2 t ht)
    · rw [OrderedSet.mem_insertMany]
      obtain ht | ht := List.mem_append.mp ht
      · exact .inr (hplan.2 t ht)
      · exact .inl (mem_tidsInvolved.mpr ht)

section Exact

variable {ok : Pid → Prop}

/-- A thread that is not `ok` has no candidates when the walk reaches it. -/
def NoStray (getMigration : Candidates R) (ok : Pid → Prop) (plan : Plan R) (tid : Pid) : Prop :=
  tid ∉ plan.migratedPids → ¬ ok tid → getMigration plan.migratedPids tid = []

/-- A step keeps the threads of the plan `ok` exactly when it meets the condition. -/
theorem forall_planStep_iff
    (h : ∀ migratedPids, ∀ cell ∈ getMigration migratedPids tid,
      tid ∈ cell.tids ∧ ∀ t ∈ cell.tids, t = tid ∨ ok t) :
    (∀ t ∈ planTids (planStep getMigration plan tid).migrations, ok t) ↔
      (∀ t ∈ planTids plan.migrations, ok t) ∧ NoStray getMigration ok plan tid := by
  obtain ⟨hnone, heq⟩ | ⟨hfresh, migration, hmem, heq⟩ := planStep_cases getMigration plan tid
  · have hcond : NoStray getMigration ok plan tid := fun hnot _ => hnone.resolve_left hnot
    rw [heq]
    exact (and_iff_left hcond).symm
  · obtain ⟨hself, hothers⟩ := h _ migration hmem
    rw [heq]
    simp only [planTids_concat, List.forall_mem_append]
    refine and_congr_right fun _ => ⟨fun hall _ hbad => absurd (hall tid hself) hbad,
      fun hcond t ht => ?_⟩
    have hok : ok tid := by
      by_contra hbad
      rw [hcond hfresh hbad] at hmem
      exact absurd hmem List.not_mem_nil
    obtain rfl | ht := hothers t ht
    · exact hok
    · exact ht

/-- **Exact condition.** Where the partners are `ok`, the whole plan is exactly when each step
of the walk meets the condition. -/
theorem forall_getMigrationList_iff
    (h : ∀ tid ∈ worstTids, ∀ migratedPids, ∀ cell ∈ getMigration migratedPids tid,
      tid ∈ cell.tids ∧ ∀ t ∈ cell.tids, t = tid ∨ ok t) :
    (∀ t ∈ planTids (getMigrationList getMigration worstTids), ok t) ↔
      StepsOfRun (planStep getMigration) (NoStray getMigration ok) Plan.empty worstTids := by
  suffices hrun : ∀ plan : Plan R,
      (∀ t ∈ planTids (run (planStep getMigration) plan worstTids).migrations, ok t) ↔
        (∀ t ∈ planTids plan.migrations, ok t) ∧
          StepsOfRun (planStep getMigration) (NoStray getMigration ok) plan worstTids by
    have hempty : ∀ t ∈ planTids (Plan.empty : Plan R).migrations, ok t :=
      fun t ht => absurd ht List.not_mem_nil
    exact (hrun Plan.empty).trans (and_iff_right hempty)
  induction worstTids with
  | nil => exact fun plan => by simp
  | cons tid worstTids ih =>
    intro plan
    have hrest := ih fun tid' htid' => h tid' (List.mem_cons_of_mem tid htid')
    rw [run_cons, hrest, forall_planStep_iff (h tid List.mem_cons_self), stepsOfRun_cons, and_assoc]

end Exact

/-! ### Candidates that may be undefined -/

/-- `get_migration_list`, where looking for the candidates of a thread may fail. -/
def tryGetMigrationList (getMigration : OrderedSet Pid → Pid → Option (List (MigrationCell R)))
    (worstTids : List Pid) : Option (List (MigrationCell R)) :=
  let plan := worstTids.foldlM (fun plan tid =>
    if tid ∈ plan.migratedPids then some plan
    else (getMigration plan.migratedPids tid).map plan.add) Plan.empty
  plan.map Plan.migrations

/-- A plan that is returned is that of the candidates found, which are defined throughout. -/
theorem getMigrationList_of_try
    {getMigration : OrderedSet Pid → Pid → Option (List (MigrationCell R))}
    {cells : List (MigrationCell R)} (h : tryGetMigrationList getMigration worstTids = some cells) :
    cells = getMigrationList (fun migratedPids tid => (getMigration migratedPids tid).getD [])
      worstTids := by
  obtain ⟨last, hlast, rfl⟩ := Option.map_eq_some_iff.mp h
  clear h
  -- step by step the two walks agree as long as the first does not fail
  refine congrArg Plan.migrations ?_
  generalize (Plan.empty : Plan R) = plan at hlast ⊢
  induction worstTids generalizing plan with
  | nil => exact (Option.some.inj hlast).symm
  | cons tid worstTids ih =>
    rw [List.foldlM_cons] at hlast
    obtain ⟨next, hnext, hrest⟩ := Option.bind_eq_some_iff.mp hlast
    rw [run_cons, ih next hrest]
    refine congrArg (run _ · worstTids) ?_
    unfold planStep
    split_ifs at hnext ⊢ with hmem
    · exact (Option.some.inj hnext).symm
    · obtain ⟨migr, hmigr, rfl⟩ := Option.map_eq_some_iff.mp hnext
      simp only [hmigr, Option.getD_some]

end Thanos
