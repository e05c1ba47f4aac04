import Thanos.Strategies.Migratable
import Thanos.Migration.Lookups
import Thanos.SystemInfo.ThreadRuns

/-!
# The cells of the plans of all strategies

Whatever the strategy, a cell moves threads that have a row in the performance table or that are
listed at their destination, to places of the kind that the strategy moves to
(`Strategy.names_of_plan`). The strategies that walk over threads plan at most
`max_thread_migrations` cells (`Strategy.length_plan_le`).
-/

namespace Thanos

variable {R : Type} [RealT R]

namespace Strategy

/-- `migrate_to_nodes`. -/
def migrateToNodes : Strategy → Bool
  | lbma | cimar | imar2 | random => false
  | nimar | rm3d | annealingNode => true

end Strategy

namespace Globals

variable {g : Globals R} {node : Bool} {half : SimpleMigrationCell R} {tid t : Pid}

/-- A thread has a row in the performance table, or is listed. -/
def Knows (g : Globals R) (t : Pid) : Prop :=
  t ∈ g.perfTable.tids ∨ g.system.Listed t

/-- A simple cell moves a thread that is known. -/
structure Names (g : Globals R) (node : Bool) (half : SimpleMigrationCell R) : Prop where
  node_eq : half.node = node
  knows : g.Knows half.tid

/-- A cell moves threads that are known. -/
def NamesAll (g : Globals R) (node : Bool) (cell : MigrationCell R) : Prop :=
  ∀ half ∈ cell.migrations, g.Names node half

theorem names_simpleCell {dest prev : ℕ} (h : g.Knows t) :
    g.Names node (g.simpleCell node t dest prev) :=
  ⟨rfl, h⟩

omit [RealT R] in
theorem namesAll_single {tickets : Tickets R} (h : g.Names node half) :
    g.NamesAll node ⟨[half], tickets⟩ :=
  List.forall_mem_singleton.mpr h

omit [RealT R] in
theorem namesAll_pair {half' : SimpleMigrationCell R} {tickets : Tickets R}
    (h : g.Names node half) (h' : g.Names node half') :
    g.NamesAll node ⟨[half, half'], tickets⟩ :=
  List.forall_mem_cons.mpr ⟨h, List.forall_mem_singleton.mpr h'⟩

theorem knows_of_nonIdleCpu {cpu : Cpu} (h : t ∈ g.system.nonIdleTidsFromCpu cpu) : g.Knows t :=
  .inr (.inl ⟨cpu, (OrderedSet.mem_filter.mp h).1⟩)

theorem knows_of_nonIdleNode {n : Node} (h : t ∈ g.system.nonIdleTidsFromNode n) : g.Knows t :=
  .inr (.inr ⟨n, (OrderedSet.mem_filter.mp h).1⟩)

theorem mem_tids_of_mem_worstTidPerf {eligible : Pid → Bool} {entry : R × Pid}
    (h : entry ∈ g.worstTidPerf eligible) : entry.2 ∈ g.perfTable.tids := by
  have hsorted := List.mem_of_mem_take h
  rw [(List.perm_insertionSort _ _).mem_iff, List.mem_filterMap] at hsorted
  obtain ⟨tid, htid, hentry⟩ := hsorted
  simp only [Option.ite_none_right_eq_some] at hentry
  obtain rfl := Option.some.inj hentry.2
  exact htid

end Globals

/-! ### The threads drawn -/

/-- The loop takes as many threads as it is asked for, each of them once. -/
theorem takeRandom_some {tids taken result : List Pid} {count : ℕ} {draws : List ℕ}
    (htaken : taken.Nodup) (hsub : ∀ t ∈ taken, t ∈ tids)
    (h : takeRandom tids count taken draws = some result) :
    result.length = taken.length + count ∧ result.Nodup ∧ ∀ t ∈ result, t ∈ tids := by
  induction draws generalizing count taken with
  | nil =>
    cases count with
    | zero =>
      obtain rfl := Option.some.inj h
      exact ⟨rfl, htaken, hsub⟩
    | succ count => simp [takeRandom] at h
  | cons draw draws ih =>
    cases count with
    | zero =>
      obtain rfl := Option.some.inj h
      exact ⟨rfl, htaken, hsub⟩
    | succ count =>
      rw [takeRandom] at h
      split at h
      · simp at h
      · rename_i tid htid
        split_ifs at h with hmem
        · -- a thread that has been taken is drawn again
          exact ih htaken hsub h
        · -- a thread that has not been taken yet
          have hnodup : (taken ++ [tid]).Nodup :=
            List.nodup_append.mpr ⟨htaken, List.nodup_singleton tid, by
              rintro t ht _ ht' rfl
              exact hmem (List.mem_singleton.mp ht' ▸ ht)⟩
          have hsub' : ∀ t ∈ taken ++ [tid], t ∈ tids := List.forall_mem_append.mpr
            ⟨hsub, List.forall_mem_singleton.mpr (List.mem_of_getElem? htid)⟩
          obtain ⟨hlength, hresult⟩ := ih hnodup hsub' h
          rw [List.length_append, List.length_singleton] at hlength
          exact ⟨by omega, hresult⟩

omit [RealT R] in
/-- LBMA and RANDOM plan for as many threads as they may, each of them once. -/
theorem randomTids_some {g : Globals R} {draws : List ℕ} {tids : List Pid}
    (h : g.randomTids draws = some tids) :
    tids.length = min g.settings.maxThreadMigrations g.perfTable.tids.length ∧ tids.Nodup ∧
      ∀ t ∈ tids, t ∈ g.perfTable.tids := by
  have hspec := takeRandom_some List.nodup_nil (fun t ht => absurd ht List.not_mem_nil) h
  rwa [List.length_nil, Nat.zero_add] at hspec

/-! ### Walks over threads -/

section Walks

variable {g : Globals R} {migratedPids : OrderedSet Pid} {tid : Pid} {cell : MigrationCell R}
  {candidates : Candidates R} {worstTids : List Pid} {node : Bool}

theorem namesAll_getMigrationList
    (hworst : ∀ tid ∈ worstTids, tid ∈ g.perfTable.tids)
    (hcells : ∀ migratedPids tid, g.Knows tid → ∀ cell ∈ candidates migratedPids tid,
      g.NamesAll node cell) :
    ∀ cell ∈ getMigrationList candidates worstTids, g.NamesAll node cell :=
  forall_getMigrationList fun tid htid migratedPids =>
    hcells migratedPids tid (.inl (hworst tid htid))

theorem Cimar.namesAll (htid : g.Knows tid) (h : cell ∈ getMigration g migratedPids tid) :
    g.NamesAll false cell := by
  obtain ⟨dstCpu, hcand⟩ := exists_candidate h
  simp only [candidate] at hcand
  split_ifs at hcand with hmove
  · obtain rfl := Option.some.inj hcand
    exact Globals.namesAll_single (Globals.names_simpleCell htid)
  · cases hbest : g.bestPidForSwapCpu (g.system.proc tid).pinnedProcessor dstCpu migratedPids with
    | none => simp [hbest] at hcand
    | some best =>
      obtain ⟨hswap, -⟩ := Globals.bestPidForSwap_some hbest
      simp only [hbest, Option.ite_none_right_eq_some] at hcand
      obtain rfl := Option.some.inj hcand.2
      exact Globals.namesAll_pair (Globals.names_simpleCell htid)
        (Globals.names_simpleCell (Globals.knows_of_nonIdleCpu hswap))

theorem candidateWithoutGain_namesAll {swapRecord : Pid → Pid} {dstCpu : Cpu}
    (htid : g.Knows tid)
    (h : g.candidateWithoutGain swapRecord migratedPids tid dstCpu = some cell) :
    g.NamesAll false cell := by
  simp only [Globals.candidateWithoutGain] at h
  split_ifs at h with hfree
  · obtain rfl := Option.some.inj h
    exact Globals.namesAll_single (Globals.names_simpleCell htid)
  · cases hbest : g.bestPidForSwapCpu (g.system.proc tid).pinnedProcessor dstCpu migratedPids with
    | none => simp [hbest] at h
    | some best =>
      obtain ⟨hswap, -⟩ := Globals.bestPidForSwap_some hbest
      simp only [hbest] at h
      obtain rfl := Option.some.inj h
      exact Globals.namesAll_pair (Globals.names_simpleCell htid)
        ⟨rfl, Globals.knows_of_nonIdleCpu hswap⟩

theorem Random.namesAll {draws : Pid → Draws} {migr : List (MigrationCell R)}
    (htid : g.Knows tid) (h : getMigration g draws migratedPids tid = some migr)
    (hcell : cell ∈ migr) : g.NamesAll false cell := by
  obtain ⟨dstCpu, -, rfl⟩ := Option.map_eq_some_iff.mp h
  simp only [candidate] at hcell
  split_ifs at hcell with hfree
  · obtain rfl := List.mem_singleton.mp hcell
    exact Globals.namesAll_single (Globals.names_simpleCell htid)
  · cases hswap : swapTid g (draws tid).attempt (g.system.cpuTidMap dstCpu) migratedPids with
    | none => simp [hswap] at hcell
    | some swap =>
      -- the partner is drawn from the threads of the CPU
      obtain ⟨attempt, -, hattempt⟩ := List.exists_of_findSome?_eq_some hswap
      have hlisted : swap ∈ g.system.cpuTidMap dstCpu :=
        List.mem_of_getElem? (Option.filter_eq_some_iff.mp hattempt).1
      simp only [hswap, List.mem_singleton] at hcell
      obtain rfl := hcell
      exact Globals.namesAll_pair (Globals.names_simpleCell htid)
        (Globals.names_simpleCell (.inr (.inl ⟨dstCpu, hlisted⟩)))

theorem Nimar.namesAll (htid : g.Knows tid) (h : cell ∈ getMigration g migratedPids tid) :
    g.NamesAll true cell := by
  cases mem_getMigration h with
  | move hne hfree hgain => exact Globals.namesAll_single (Globals.names_simpleCell htid)
  | interchange hne hswap hmig hfresh hgain =>
    exact Globals.namesAll_pair (Globals.names_simpleCell htid)
      (Globals.names_simpleCell (Globals.knows_of_nonIdleNode hswap))

end Walks

/-! ### Searches of schedules -/

namespace Mapping

variable {g : Globals R} {expected : Score R} {threads : List (Thread R)} {st st' : Search R}
  {draws : SearchDraws R}

/-- A score is asked for on the way. -/
def ScoresReached (g : Globals R) (expected : Score R) : Prop :=
  ∀ threads schedule, Reached g threads schedule → Reached g threads (expected schedule).2

theorem scoresReached_expectedTickets : ScoresReached g (Schedule.expectedTickets g) :=
  fun _ _ h => h.expectedTickets

theorem scoresReached_expectedPerf : ScoresReached g (Schedule.expectedPerf g) :=
  fun _ _ h => h.expectedPerf

/-- Both schedules of a search are reached. -/
structure SearchReached (g : Globals R) (threads : List (Thread R)) (st : Search R) : Prop where
  curr : Reached g threads st.currSolution
  best : Reached g threads st.bestSolution

theorem SearchReached.step (hexp : ScoresReached g expected) (hst : SearchReached g threads st)
    (h : searchStep g expected st = some st') : SearchReached g threads st' := by
  obtain ⟨⟨neighbour, ints⟩, hneigh, h⟩ := Option.bind_eq_some_iff.mp h
  -- whether it is accepted or not, the neighbour is reached
  have hcand : Reached g threads (expected neighbour).2 := hexp _ _ (.neighbour hst.curr hneigh)
  dsimp only at h
  split_ifs at h with hcurr hbest
  · obtain rfl := Option.some.inj h
    exact ⟨hcand, hcand⟩
  · obtain rfl := Option.some.inj h
    exact ⟨hcand, hst.best⟩
  · split at h
    · exact absurd h (by simp)
    · split_ifs at h with haccept
      · obtain rfl := Option.some.inj h
        exact ⟨hcand, hst.best⟩
      · obtain rfl := Option.some.inj h
        exact ⟨hst.curr, hst.best⟩

theorem SearchReached.loop {iterations : ℕ} (hexp : ScoresReached g expected)
    (hst : SearchReached g threads st) (h : searchLoop g expected iterations st = some st') :
    SearchReached g threads st' := by
  induction iterations generalizing st with
  | zero =>
    obtain rfl := Option.some.inj h
    exact hst
  | succ iterations ih =>
    rw [searchLoop] at h
    split_ifs at h with hmore
    · obtain ⟨next, hnext, hrest⟩ := Option.bind_eq_some_iff.mp h
      exact ih (hst.step hexp hnext) hrest
    · obtain rfl := Option.some.inj h
      exact hst

/-- The best schedule of a search is reached. -/
theorem reached_optimalSchedule {bestSolution : Schedule R} (hexp : ScoresReached g expected)
    (h : optimalSchedule g expected (Schedule.new g threads) draws = some bestSolution) :
    Reached g threads bestSolution := by
  obtain ⟨last, hlast, rfl⟩ := Option.map_eq_some_iff.mp h
  have hstart : SearchReached g threads
      (searchStart expected (Schedule.new g threads) draws) := ⟨.new, .new⟩
  exact (hstart.loop hexp hlast).best

/-- The partner is one of the threads of the destination. -/
theorem mem_of_betterSwap (known : Pid → Prop) {migratedTids : OrderedSet Pid} {t1 : Thread R}
    {tids : List Pid} {swap best : Option (Pid × Tickets R)} (htids : ∀ t ∈ tids, known t)
    (hswap : ∀ b ∈ swap, known b.1)
    (h : tids.foldl (Schedule.betterSwap g threads migratedTids t1) swap = best) :
    ∀ b ∈ best, known b.1 := by
  subst h
  refine run_invariant_of_mem (I := fun swap : Option (Pid × Tickets R) => ∀ b ∈ swap, known b.1)
    hswap fun swap auxTid haux hswap => ?_
  unfold Schedule.betterSwap
  split_ifs with hskip hback
  · exact hswap
  · intro b hb
    dsimp only at hb
    split_ifs at hb with hmore
    · obtain rfl := Option.some.inj hb
      exact htids auxTid haux
    · exact hswap b hb
  · exact hswap

theorem namesAll_migrationStep {st st' : Schedule.Migrating R} {t1 : Thread R}
    (ht1 : g.Knows t1.tid) (hst : ∀ cell ∈ st.mig, g.NamesAll true cell)
    (h : Schedule.migrationStep g threads st t1 = some st') :
    ∀ cell ∈ st'.mig, g.NamesAll true cell := by
  rw [Schedule.migrationStep] at h
  split_ifs at h with hskip
  · obtain rfl := Option.some.inj h
    exact hst
  · obtain ⟨inDst, -, rfl⟩ := Option.map_eq_some_iff.mp h
    by_cases hfree : inDst.size < g.topology.cpusPerNode
    · simp only [hfree, if_true]
      exact List.forall_mem_append.mpr ⟨hst, List.forall_mem_singleton.mpr
        (Globals.namesAll_single (Globals.names_simpleCell ht1))⟩
    · simp only [hfree, if_false]
      cases hswap : (g.system.nonIdleTidsFromNode t1.dstNode).toList.foldl
          (Schedule.betterSwap g threads st.migratedTids t1) none with
      | none => exact hst
      | some swap =>
        have hknows : g.Knows swap.1 := mem_of_betterSwap g.Knows
          (fun t ht => Globals.knows_of_nonIdleNode (OrderedSet.mem_def.mpr ht))
          (fun b hb => by simp at hb) hswap swap rfl
        exact List.forall_mem_append.mpr ⟨hst, List.forall_mem_singleton.mpr
          (Globals.namesAll_pair (Globals.names_simpleCell ht1)
            (Globals.names_simpleCell hknows))⟩

/-- The threads of a schedule that is reached are those of the performance table. -/
theorem knows_of_reached {schedule : Schedule R} (h : Reached g (tableThreads g) schedule)
    {thread : Thread R} (hthread : thread ∈ schedule.threads) : g.Knows thread.tid := by
  -- the threads of a schedule are those it began with, maybe on other nodes
  have hhome : ∀ thread ∈ tableThreads g, thread.srcNode = thread.dstNode := by
    intro thread hthread
    obtain ⟨entry, -, rfl⟩ := List.mem_map.mp hthread
    rfl
  have htid : thread.tid ∈ (tableThreads g).map Thread.tid := by
    rw [← (h.backed hhome).map_tid]
    exact List.mem_map_of_mem hthread
  have htids : (tableThreads g).map Thread.tid = g.perfTable.tids := by
    rw [tableThreads, List.map_map]
    rfl
  exact .inl (htids ▸ htid)

theorem namesAll_of_plan {cells : List (MigrationCell R)} (hexp : ScoresReached g expected)
    (h : performMigrationAlgorithm g expected draws = some cells) :
    ∀ cell ∈ cells, g.NamesAll true cell := by
  have hnil : ∀ cell ∈ ([] : List (MigrationCell R)), g.NamesAll true cell :=
    fun cell hcell => absurd hcell List.not_mem_nil
  simp only [performMigrationAlgorithm, getMigrationList] at h
  split_ifs at h with hempty hone
  · obtain rfl := Option.some.inj h
    exact hnil
  · obtain rfl := Option.some.inj h
    exact hnil
  · obtain ⟨bestSolution, hbest, h⟩ := Option.bind_eq_some_iff.mp h
    obtain ⟨migrations, hmig, rfl⟩ := Option.map_eq_some_iff.mp h
    -- the cells are those of the best schedule that the search has found
    have hreached := hexp _ _ (reached_optimalSchedule hexp hbest)
    obtain ⟨last, hlast, rfl⟩ := Option.map_eq_some_iff.mp hmig
    have hall : ∀ cell ∈ last.mig, g.NamesAll true cell :=
      foldlM_invariant (I := fun st : Schedule.Migrating R => ∀ cell ∈ st.mig,
        g.NamesAll true cell) hnil (fun st next t1 ht1 hst hnext =>
          namesAll_migrationStep (knows_of_reached hreached ht1) hst hnext) hlast
    split_ifs
    · exact hall
    · exact hall
    · exact hnil

end Mapping

/-! ### Plans -/

namespace Strategy

variable {g : Globals R} {draws : Draws R} {cells : List (MigrationCell R)}

/-- **Plans.** -/
theorem namesAll_of_plan (strategy : Strategy) (draws : Draws R)
    (h : strategy.performMigrationAlgorithm g draws = some cells) :
    ∀ cell ∈ cells, g.NamesAll strategy.migrateToNodes cell := by
  have hworst : ∀ eligible, ∀ tid ∈ (g.worstTidPerf eligible).map Prod.snd,
      tid ∈ g.perfTable.tids := by
    intro eligible tid htid
    obtain ⟨entry, hentry, rfl⟩ := List.mem_map.mp htid
    exact Globals.mem_tids_of_mem_worstTidPerf hentry
  cases strategy with
  | lbma =>
    obtain ⟨tids, htids, rfl⟩ := Option.map_eq_some_iff.mp h
    refine namesAll_getMigrationList (randomTids_some htids).2.2 fun _ _ htid _ hcell => ?_
    obtain ⟨dstCpu, hcand⟩ := exists_candidate hcell
    exact candidateWithoutGain_namesAll htid hcand
  | imar2 =>
    obtain rfl := Option.some.inj h
    refine namesAll_getMigrationList (hworst _) fun _ _ htid _ hcell => ?_
    obtain ⟨dstCpu, hcand⟩ := exists_candidate hcell
    exact candidateWithoutGain_namesAll htid hcand
  | random =>
    obtain ⟨tids, htids, htry⟩ := Option.bind_eq_some_iff.mp h
    rw [getMigrationList_of_try htry]
    refine namesAll_getMigrationList (randomTids_some htids).2.2
      fun migratedPids tid htid cell hcell => ?_
    cases hmigr : Random.getMigration g draws.thread migratedPids tid with
    | none => simp [hmigr] at hcell
    | some migr =>
      rw [hmigr, Option.getD_some] at hcell
      exact Random.namesAll htid hmigr hcell
  | cimar =>
    obtain rfl := Option.some.inj h
    exact namesAll_getMigrationList (hworst _) fun _ _ htid _ hcell => Cimar.namesAll htid hcell
  | nimar =>
    obtain rfl := Option.some.inj h
    exact namesAll_getMigrationList (hworst _) fun _ _ htid _ hcell => Nimar.namesAll htid hcell
  | rm3d => exact Mapping.namesAll_of_plan Mapping.scoresReached_expectedPerf h
  | annealingNode => exact Mapping.namesAll_of_plan Mapping.scoresReached_expectedTickets h

/-- The strategies that plan with a walk over threads. -/
def Walks : Strategy → Prop
  | lbma | cimar | nimar | imar2 | random => True
  | rm3d | annealingNode => False

/-- **Length.** -/
theorem length_plan_le {strategy : Strategy} (draws : Draws R) (hwalks : strategy.Walks)
    (h : strategy.performMigrationAlgorithm g draws = some cells) :
    cells.length ≤ g.settings.maxThreadMigrations := by
  have hworst : ∀ eligible, ((g.worstTidPerf eligible).map Prod.snd).length ≤
      g.settings.maxThreadMigrations := fun eligible => by
    rw [List.length_map]
    exact Globals.length_worstTidPerf_le
  have hrandom : ∀ tids, g.randomTids draws.selection = some tids →
      tids.length ≤ g.settings.maxThreadMigrations := fun tids htids => by
    rw [(randomTids_some htids).1]
    exact Nat.min_le_left _ _
  cases strategy with
  | lbma =>
    obtain ⟨tids, htids, rfl⟩ := Option.map_eq_some_iff.mp h
    exact length_getMigrationList_le.trans (hrandom tids htids)
  | imar2 =>
    obtain rfl := Option.some.inj h
    exact length_getMigrationList_le.trans (hworst _)
  | random =>
    obtain ⟨tids, htids, htry⟩ := Option.bind_eq_some_iff.mp h
    rw [getMigrationList_of_try htry]
    exact length_getMigrationList_le.trans (hrandom tids htids)
  | cimar =>
    obtain rfl := Option.some.inj h
    exact length_getMigrationList_le.trans (hworst _)
  | nimar =>
    obtain rfl := Option.some.inj h
    exact length_getMigrationList_le.trans (hworst _)
  | rm3d => exact hwalks.elim
  | annealingNode => exact hwalks.elim

end Strategy

end Thanos
