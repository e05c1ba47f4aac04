import Thanos.Migration.Neighbours

/-!
# RM3D and annealing

RM3D and the annealing strategy search for a schedule with a high score by simulated annealing
and turn the best one found into a plan, if the improvement is worth the migrations. They
differ in the score only, the expected performance or the expected tickets, which is a
parameter here.

* **Search** (`optimalSchedule_moversMigratable`): in the schedule found only migratable threads
  have moved.
* **Plan** (`migratable_of_plan`): so a plan names migratable threads only.
* **Scores** (`Remembers`): what a schedule remembers of its score is its score.
* **Best** (`optimalSchedule_isBest`): the schedule found has the highest score of all that were
  tried, and the current score never exceeds the best one.
-/

namespace Thanos.Mapping

variable {R : Type} [RealT R]

/-- `expected_perf()` or `expected_tickets()`, with the schedule that remembers it. -/
abbrev Score (R : Type) :=
  Schedule R → R × Schedule R

/-- What remains of the draws of a search. -/
structure SearchDraws (R : Type) where
  ints : List ℕ
  /-- `rnd(0.0, 1.0)`. -/
  reals : List R

/-- The state of the loop of `optimal_schedule`. -/
structure Search (R : Type) where
  currSolution : Schedule R
  bestSolution : Schedule R
  currScore : R
  bestScore : R
  iterWithoutImp : ℕ
  temperature : R
  draws : SearchDraws R

/-- `probability(current, best, temperature)`. -/
def probability (current best temperature : R) : R :=
  let probability := (RealT.ofRat 1 - (best - current) / best) * temperature
  if RealT.isNormal probability then probability else RealT.ofRat 0

/-- `INITIAL_TEMP`. -/
def initialTemp : R :=
  RealT.ofRat (10 / 100)

/-- `SCALE_TEMP`. -/
def scaleTemp : R :=
  RealT.ofRat (97 / 100)

variable (g : Globals R) (expected : Score R)

/-- The body of the loop of `optimal_schedule`. -/
def searchStep (st : Search R) : Option (Search R) :=
  (Schedule.neighbour g 1 st.currSolution st.draws.ints).bind fun (neighbour, ints) =>
    let (candScore, candSolution) := expected neighbour
    let draws := { st.draws with ints := ints }
    let temperature := initialTemp * scaleTemp
    if st.currScore < candScore then
      if st.bestScore < candScore then
        some ⟨candSolution, candSolution, candScore, candScore, 0, temperature, draws⟩
      else
        some ⟨candSolution, st.bestSolution, candScore, st.bestScore, st.iterWithoutImp,
          temperature, draws⟩
    else
      match draws.reals with
      | [] => none
      | draw :: reals =>
        let draws := { draws with reals := reals }
        -- a worse candidate may be accepted too
        if draw < probability candScore st.currScore st.temperature then
          some ⟨candSolution, st.bestSolution, candScore, st.bestScore, st.iterWithoutImp + 1,
            temperature, draws⟩
        else
          some { st with
            iterWithoutImp := st.iterWithoutImp + 1, temperature := temperature, draws := draws }

/-- The loop of `optimal_schedule` with the iterations that remain, stopped by
`MAX_ITER_WO_IMPR`. -/
def searchLoop : ℕ → Search R → Option (Search R)
  | 0, st => some st
  | iterations + 1, st =>
    if st.iterWithoutImp < 20 then (searchStep g expected st).bind (searchLoop iterations)
    else some st

/-- `optimal_schedule`, with `MAX_ITER`. -/
def optimalSchedule (initSolution : Schedule R) (draws : SearchDraws R) : Option (Schedule R) :=
  let initScore := (expected initSolution).1
  (searchLoop g expected 100
    ⟨initSolution, initSolution, initScore, initScore, 0, initialTemp, draws⟩).map
      Search.bestSolution

/-- `n_threads_involved`. -/
def nThreadsInvolved (migrations : List (MigrationCell R)) : ℕ :=
  migrations.foldl (fun n m => n + m.tidsInvolved.size) 0

/-- `get_migration_list`: the plan is dropped if the improvement in percent is too small. -/
def getMigrationList (threads : List (Thread R)) (draws : SearchDraws R) :
    Option (List (MigrationCell R)) :=
  if g.topology.numOfNodes = 1 then some []
  else
    let initSolution := Schedule.new g threads
    (optimalSchedule g expected initSolution draws).bind fun bestSolution =>
      let initScore := (expected initSolution).1
      let (bestScore, bestSolution) := expected bestSolution
      let improvement := (bestScore - initScore) / initScore * RealT.ofRat 100
      (bestSolution.migrations g).map fun migrations =>
        if RealT.ofRat (10 / 100) < improvement then migrations
        else if RealT.ofRat (1 / 100) < improvement ∧
            real (nThreadsInvolved migrations) < improvement then migrations
        else []

/-- The threads of the performance table, each on the node of its pinned CPU. -/
def tableThreads : List (Thread R) :=
  g.perfTable.table.map fun (tid, data) =>
    let node := g.topology.cpuNodeMap (g.system.proc tid).pinnedProcessor
    ⟨tid, data.performance, node, node⟩

/-- `perform_migration_algorithm`. -/
def performMigrationAlgorithm (draws : SearchDraws R) : Option (List (MigrationCell R)) :=
  let threads := tableThreads g
  if threads.isEmpty then some [] else getMigrationList g expected threads draws

/-! ### Threads that move are migratable -/

/-- A score is a function of the schedule and changes nothing but what is remembered of it. -/
def KeepsThreads (expected : Score R) : Prop :=
  ∀ schedule, (expected schedule).2.threads = schedule.threads

theorem keepsThreads_expectedPerf : KeepsThreads (Schedule.expectedPerf g) :=
  fun _ => rfl

theorem keepsThreads_expectedTickets : KeepsThreads (Schedule.expectedTickets g) :=
  fun _ => rfl

variable {g expected} {st st' : Search R} {draws : SearchDraws R}

/-- The threads that move in the two schedules of a search are migratable. -/
def SearchMigratable (g : Globals R) (st : Search R) : Prop :=
  Schedule.MoversMigratable g st.currSolution.threads ∧
    Schedule.MoversMigratable g st.bestSolution.threads

theorem SearchMigratable.step (hexp : KeepsThreads expected) (hst : SearchMigratable g st)
    (h : searchStep g expected st = some st') : SearchMigratable g st' := by
  obtain ⟨⟨neighbour, ints⟩, hneigh, h⟩ := Option.bind_eq_some_iff.mp h
  have hcand : Schedule.MoversMigratable g (expected neighbour).2.threads := by
    rw [hexp]
    exact Schedule.neighbour_moversMigratable hst.1 hneigh
  dsimp only at h
  split_ifs at h with hcurr hbest
  · obtain rfl := Option.some.inj h
    exact ⟨hcand, hcand⟩
  · obtain rfl := Option.some.inj h
    exact ⟨hcand, hst.2⟩
  · split at h
    · exact absurd h (by simp)
    · split_ifs at h with haccept
      · obtain rfl := Option.some.inj h
        exact ⟨hcand, hst.2⟩
      · obtain rfl := Option.some.inj h
        exact hst

theorem SearchMigratable.loop {iterations : ℕ} (hexp : KeepsThreads expected)
    (hst : SearchMigratable g st) (h : searchLoop g expected iterations st = some st') :
    SearchMigratable g st' := by
  induction iterations generalizing st with
  | zero =>
    obtain rfl := Option.some.inj h
    exact hst
  | succ iterations ih =>
    rw [searchLoop] at h
    split_ifs at h with hmore
    · obtain ⟨next, hnext, hrest⟩ := Option.bind_eq_some_iff.mp h
      exact ih (hst.step hexp hnext) hrest
    · obtain rfl := Option.some.inj h
      exact hst

/-- **Search.** -/
theorem optimalSchedule_moversMigratable {initSolution bestSolution : Schedule R}
    (hexp : KeepsThreads expected)
    (hinit : Schedule.MoversMigratable g initSolution.threads)
    (h : optimalSchedule g expected initSolution draws = some bestSolution) :
    Schedule.MoversMigratable g bestSolution.threads := by
  obtain ⟨last, hlast, rfl⟩ := Option.map_eq_some_iff.mp h
  have hstart : SearchMigratable g ⟨initSolution, initSolution, (expected initSolution).1,
      (expected initSolution).1, 0, initialTemp, draws⟩ := ⟨hinit, hinit⟩
  exact (hstart.loop hexp hlast).2

/-- **Plan.** -/
theorem migratable_of_plan {cells : List (MigrationCell R)} (hexp : KeepsThreads expected)
    (h : performMigrationAlgorithm g expected draws = some cells) :
    ∀ t ∈ planTids cells, g.system.isMigratable t = true := by
  have hnil : ∀ t ∈ planTids ([] : List (MigrationCell R)), g.system.isMigratable t = true :=
    fun t ht => absurd ht List.not_mem_nil
  simp only [performMigrationAlgorithm, getMigrationList] at h
  split_ifs at h with hempty hone
  · obtain rfl := Option.some.inj h
    exact hnil
  · obtain rfl := Option.some.inj h
    exact hnil
  · obtain ⟨bestSolution, hbest, h⟩ := Option.bind_eq_some_iff.mp h
    obtain ⟨migrations, hmig, rfl⟩ := Option.map_eq_some_iff.mp h
    -- at the start no thread has moved
    have hinit : Schedule.MoversMigratable g (Schedule.new g (tableThreads g)).threads := by
      intro thread hthread hmoved
      obtain ⟨entry, -, rfl⟩ := List.mem_map.mp hthread
      exact absurd rfl hmoved
    have hmovers := optimalSchedule_moversMigratable hexp hinit hbest
    rw [← hexp] at hmovers
    have hall := Schedule.migratable_of_migrations hmovers hmig
    split_ifs
    · exact hall
    · exact hall
    · exact hnil

/-! ### The best schedule -/

/-- The candidate that an iteration tries, with its score remembered. -/
def candidate (g : Globals R) (expected : Score R) (st : Search R) : Option (Schedule R) :=
  (Schedule.neighbour g 1 st.currSolution st.draws.ints).map fun (neighbour, _) =>
    (expected neighbour).2

/-- The candidates that the loop tries, in their order. -/
def candidates (g : Globals R) (expected : Score R) : ℕ → Search R → List (Schedule R)
  | 0, _ => []
  | iterations + 1, st =>
    if st.iterWithoutImp < 20 then
      (candidate g expected st).toList ++
        (searchStep g expected st).elim [] (candidates g expected iterations)
    else []

/-- The states of the loop before and after its iterations. -/
def searchStates (g : Globals R) (expected : Score R) : ℕ → Search R → List (Search R)
  | 0, st => [st]
  | iterations + 1, st =>
    st :: if st.iterWithoutImp < 20 then
        (searchStep g expected st).elim [] (searchStates g expected iterations)
      else []

/-- The state in which `optimal_schedule` starts its loop. -/
abbrev searchStart (expected : Score R) (initSolution : Schedule R) (draws : SearchDraws R) :
    Search R :=
  ⟨initSolution, initSolution, (expected initSolution).1, (expected initSolution).1, 0,
    initialTemp, draws⟩

/-- A score that schedules remember: in a coherent schedule what is remembered is the value of
its threads, and neighbours and requests for the score keep schedules coherent. -/
structure Remembers (g : Globals R) (expected : Score R) (value : List (Thread R) → R)
    (coherent : Schedule R → Prop) : Prop where
  score : ∀ schedule, coherent schedule → (expected schedule).1 = value schedule.threads
  keepsThreads : KeepsThreads expected
  coherent_score : ∀ schedule, coherent schedule → coherent (expected schedule).2
  coherent_mutation : ∀ schedule schedule', coherent schedule →
    Schedule.Mutation g schedule schedule' → coherent schedule'

/-- What `compute_expected_tickets` computes. -/
def sumTickets (g : Globals R) (threads : List (Thread R)) : R :=
  threads.foldl (fun accum thread => accum + (thread.expectedTickets g).value) (RealT.ofRat 0)

/-- What `compute_expected_performance` computes. -/
def sumPerf (g : Globals R) (threads : List (Thread R)) : R :=
  threads.foldl (fun accum thread => accum + thread.expectedPerf g) (RealT.ofRat 0)

/-- The scores that a schedule remembers are those of its threads. -/
structure Coherent (g : Globals R) (schedule : Schedule R) : Prop where
  tickets : ∀ value ∈ schedule.cachedTickets, value = sumTickets g schedule.threads
  perf : ∀ value ∈ schedule.cachedPerf, value = sumPerf g schedule.threads

variable {schedule schedule' initSolution bestSolution : Schedule R}

namespace Coherent

theorem of_none (htickets : schedule.cachedTickets = none) (hperf : schedule.cachedPerf = none) :
    Coherent g schedule where
  tickets value hvalue := by simp [htickets] at hvalue
  perf value hvalue := by simp [hperf] at hvalue

theorem new {threads : List (Thread R)} : Coherent g (Schedule.new g threads) :=
  of_none rfl rfl

theorem expectedTickets_fst (h : Coherent g schedule) :
    (schedule.expectedTickets g).1 = sumTickets g schedule.threads := by
  simp only [Schedule.expectedTickets]
  cases hcached : schedule.cachedTickets with
  | none => rfl
  | some value => exact h.tickets value hcached

theorem expectedPerf_fst (h : Coherent g schedule) :
    (schedule.expectedPerf g).1 = sumPerf g schedule.threads := by
  simp only [Schedule.expectedPerf]
  cases hcached : schedule.cachedPerf with
  | none => rfl
  | some value => exact h.perf value hcached

theorem expectedTickets (h : Coherent g schedule) :
    Coherent g (schedule.expectedTickets g).2 where
  tickets value hvalue := by
    rw [← Option.some.inj hvalue]
    exact h.expectedTickets_fst
  perf := h.perf

theorem expectedPerf (h : Coherent g schedule) : Coherent g (schedule.expectedPerf g).2 where
  tickets := h.tickets
  perf value hvalue := by
    rw [← Option.some.inj hvalue]
    exact h.expectedPerf_fst

/-- A mutation that changes the threads forgets the scores. -/
theorem mutation (h : Coherent g schedule) (hmut : Schedule.Mutation g schedule schedule') :
    Coherent g schedule' := by
  cases hmut with
  | skip => exact h
  | migrate =>
    obtain heq | ⟨thread, -, -, heq⟩ := Schedule.migrate_cases g schedule _ _
    · rw [heq]
      exact of_none rfl rfl
    · rw [heq]
      exact of_none rfl rfl
  | interchange =>
    obtain heq | ⟨t1, -, -, t2, -, -, heq⟩ := Schedule.interchange_cases schedule _ _
    · rw [heq]
      exact of_none rfl rfl
    · rw [heq]
      exact of_none rfl rfl

end Coherent

/-- The class of schedules keeps its scores coherent. -/
theorem Reached.coherent {threads : List (Thread R)} (h : Reached g threads schedule) :
    Coherent g schedule := by
  induction h with
  | new => exact .new
  | neighbour _ hneigh ih =>
    exact Schedule.neighbour_invariant
      (fun s s' _ _ hs hmut => hs.mutation (Schedule.mutation_of_mutate hmut)) ih hneigh
  | expectedTickets _ ih => exact ih.expectedTickets
  | expectedPerf _ ih => exact ih.expectedPerf

/-- **Scores.** -/
theorem remembers_expectedTickets (g : Globals R) :
    Remembers g (Schedule.expectedTickets g) (sumTickets g) (Coherent g) where
  score _ h := h.expectedTickets_fst
  keepsThreads := keepsThreads_expectedTickets g
  coherent_score _ h := h.expectedTickets
  coherent_mutation _ _ h hmut := h.mutation hmut

theorem remembers_expectedPerf (g : Globals R) :
    Remembers g (Schedule.expectedPerf g) (sumPerf g) (Coherent g) where
  score _ h := h.expectedPerf_fst
  keepsThreads := keepsThreads_expectedPerf g
  coherent_score _ h := h.expectedPerf
  coherent_mutation _ _ h hmut := h.mutation hmut

section Best

variable {g : Globals ℚ} {expected : Score ℚ} {value : List (Thread ℚ) → ℚ}
  {coherent : Schedule ℚ → Prop} {st st' : Search ℚ} {initSolution bestSolution : Schedule ℚ}
  {draws : SearchDraws ℚ} {seen : List (Schedule ℚ)} {iterations : ℕ}

/-- What holds of the state of the loop, given the schedules that have been seen. -/
structure SearchInvariant (value : List (Thread ℚ) → ℚ) (coherent : Schedule ℚ → Prop)
    (seen : List (Schedule ℚ)) (st : Search ℚ) : Prop where
  curr_coherent : coherent st.currSolution
  curr_le : st.currScore ≤ st.bestScore
  best_mem : st.bestSolution ∈ seen
  bestScore : st.bestScore = value st.bestSolution.threads
  seen_coherent : ∀ schedule ∈ seen, coherent schedule
  seen_le : ∀ schedule ∈ seen, value schedule.threads ≤ st.bestScore

theorem SearchInvariant.start (hexp : Remembers g expected value coherent)
    (hinit : coherent initSolution) :
    SearchInvariant value coherent [initSolution] (searchStart expected initSolution draws) where
  curr_coherent := hinit
  curr_le := le_rfl
  best_mem := List.mem_singleton_self initSolution
  bestScore := hexp.score _ hinit
  seen_coherent := by simpa using hinit
  seen_le := by simpa using (hexp.score _ hinit).ge

/-- **An iteration** tries one candidate. -/
theorem SearchInvariant.step (hexp : Remembers g expected value coherent)
    (hst : SearchInvariant value coherent seen st) (h : searchStep g expected st = some st') :
    SearchInvariant value coherent (seen ++ (candidate g expected st).toList) st' := by
  obtain ⟨⟨neighbour, ints⟩, hneigh, h⟩ := Option.bind_eq_some_iff.mp h
  have hcand : candidate g expected st = some (expected neighbour).2 := by
    rw [candidate, hneigh, Option.map_some]
  have hneighbour : coherent neighbour := Schedule.neighbour_invariant
    (fun s s' _ _ hs hmut => hexp.coherent_mutation s s' hs (Schedule.mutation_of_mutate hmut))
    hst.curr_coherent hneigh
  have hscore : (expected neighbour).1 = value (expected neighbour).2.threads := by
    rw [hexp.keepsThreads]
    exact hexp.score _ hneighbour
  have hcoherent : coherent (expected neighbour).2 := hexp.coherent_score _ hneighbour
  rw [hcand, Option.toList_some]
  have hall : ∀ schedule ∈ seen ++ [(expected neighbour).2], coherent schedule :=
    List.forall_mem_append.mpr ⟨hst.seen_coherent, List.forall_mem_singleton.mpr hcoherent⟩
  have hbest : st.bestSolution ∈ seen ++ [(expected neighbour).2] :=
    List.mem_append_left _ hst.best_mem
  -- a candidate that is not better than the best one leaves the best one as it is
  have hle : (expected neighbour).1 ≤ st.bestScore →
      ∀ schedule ∈ seen ++ [(expected neighbour).2], value schedule.threads ≤ st.bestScore :=
    fun hle => List.forall_mem_append.mpr ⟨hst.seen_le, List.forall_mem_singleton.mpr
      (hscore ▸ hle)⟩
  dsimp only at h
  split_ifs at h with hcurr hbetter
  · obtain rfl := Option.some.inj h
    refine ⟨hcoherent, le_rfl, by simp, hscore, hall, ?_⟩
    refine List.forall_mem_append.mpr ⟨fun schedule hschedule => ?_,
      List.forall_mem_singleton.mpr hscore.ge⟩
    exact (hst.seen_le schedule hschedule).trans hbetter.le
  · obtain rfl := Option.some.inj h
    exact ⟨hcoherent, not_lt.mp hbetter, hbest, hst.bestScore, hall, hle (not_lt.mp hbetter)⟩
  · have hworse : (expected neighbour).1 ≤ st.bestScore := (not_lt.mp hcurr).trans hst.curr_le
    split at h
    · exact absurd h (by simp)
    · split_ifs at h with haccept
      · obtain rfl := Option.some.inj h
        exact ⟨hcoherent, hworse, hbest, hst.bestScore, hall, hle hworse⟩
      · obtain rfl := Option.some.inj h
        exact ⟨hst.curr_coherent, hst.curr_le, hbest, hst.bestScore, hall, hle hworse⟩

/-- A run of the loop: the candidates are seen, and no state has a current score above the best
one. -/
theorem SearchInvariant.loop (hexp : Remembers g expected value coherent)
    (hst : SearchInvariant value coherent seen st)
    (h : searchLoop g expected iterations st = some st') :
    SearchInvariant value coherent (seen ++ candidates g expected iterations st) st' ∧
      ∀ s ∈ searchStates g expected iterations st, s.currScore ≤ s.bestScore := by
  induction iterations generalizing st seen with
  | zero =>
    obtain rfl := Option.some.inj h
    rw [candidates, List.append_nil, searchStates]
    exact ⟨hst, List.forall_mem_singleton.mpr hst.curr_le⟩
  | succ iterations ih =>
    rw [searchLoop] at h
    rw [candidates, searchStates]
    split_ifs at h ⊢ with hmore
    · obtain ⟨next, hnext, hrest⟩ := Option.bind_eq_some_iff.mp h
      obtain ⟨hlast, hstates⟩ := ih (hst.step hexp hnext) hrest
      rw [hnext, Option.elim_some, Option.elim_some, ← List.append_assoc]
      exact ⟨hlast, List.forall_mem_cons.mpr ⟨hst.curr_le, hstates⟩⟩
    · obtain rfl := Option.some.inj h
      rw [List.append_nil]
      exact ⟨hst, List.forall_mem_singleton.mpr hst.curr_le⟩

/-- **Best.** -/
theorem optimalSchedule_isBest (hexp : Remembers g expected value coherent)
    (hinit : coherent initSolution)
    (h : optimalSchedule g expected initSolution draws = some bestSolution) :
    (bestSolution = initSolution ∨
        bestSolution ∈ candidates g expected 100 (searchStart expected initSolution draws)) ∧
      (∀ schedule ∈ initSolution ::
          candidates g expected 100 (searchStart expected initSolution draws),
        (expected schedule).1 = value schedule.threads ∧
          (expected schedule).1 ≤ (expected bestSolution).1) ∧
      ∀ st ∈ searchStates g expected 100 (searchStart expected initSolution draws),
        st.currScore ≤ st.bestScore := by
  obtain ⟨last, hlast, rfl⟩ := Option.map_eq_some_iff.mp h
  obtain ⟨hinv, hstates⟩ := (SearchInvariant.start hexp hinit).loop hexp hlast
  rw [List.singleton_append] at hinv
  have hbest : (expected last.bestSolution).1 = last.bestScore := by
    rw [hinv.bestScore]
    exact hexp.score _ (hinv.seen_coherent _ hinv.best_mem)
  refine ⟨List.mem_cons.mp hinv.best_mem, fun schedule hschedule => ?_, hstates⟩
  have hscore := hexp.score _ (hinv.seen_coherent schedule hschedule)
  refine ⟨hscore, ?_⟩
  rw [hscore, hbest]
  exact hinv.seen_le schedule hschedule

/-- The schedule that the annealing strategy returns is the initial one or a candidate; no
schedule tried has more expected tickets, remembered or computed anew, and the current score is
never above the best one. -/
theorem optimalSchedule_expectedTickets (hinit : Coherent g initSolution)
    (h : optimalSchedule g (Schedule.expectedTickets g) initSolution draws = some bestSolution) :
    let start := searchStart (Schedule.expectedTickets g) initSolution draws
    let tried := initSolution :: candidates g (Schedule.expectedTickets g) 100 start
    bestSolution ∈ tried ∧
      (∀ schedule ∈ tried,
        (schedule.expectedTickets g).1 = sumTickets g schedule.threads ∧
          (schedule.expectedTickets g).1 ≤ (bestSolution.expectedTickets g).1) ∧
      ∀ st ∈ searchStates g (Schedule.expectedTickets g) 100 start,
        st.currScore ≤ st.bestScore := by
  obtain ⟨hmem, hbest⟩ := optimalSchedule_isBest (remembers_expectedTickets g) hinit h
  exact ⟨List.mem_cons.mpr hmem, hbest⟩

/-- From `oneAndTwoSchedule` the first candidate is the best; all others are worse. -/
theorem optimalSchedule_expectedTickets_oneAndTwo :
    ∃ bestSolution, optimalSchedule oneAndTwo (Schedule.expectedTickets oneAndTwo)
        oneAndTwoSchedule ⟨[1, 0] ++ (List.replicate 20 [2, 0, 1]).flatten,
          List.replicate 20 1⟩ = some bestSolution ∧
      (oneAndTwoSchedule.expectedTickets oneAndTwo).1 ≤
        (bestSolution.expectedTickets oneAndTwo).1 := by
  have hsome : (optimalSchedule oneAndTwo (Schedule.expectedTickets oneAndTwo)
      oneAndTwoSchedule ⟨[1, 0] ++ (List.replicate 20 [2, 0, 1]).flatten,
        List.replicate 20 1⟩).isSome := by
    decide +kernel
  obtain ⟨bestSolution, hbest⟩ := Option.isSome_iff_exists.mp hsome
  obtain ⟨-, hall, -⟩ := optimalSchedule_expectedTickets Coherent.new hbest
  exact ⟨bestSolution, hbest, (hall _ List.mem_cons_self).2⟩

end Best

end Thanos.Mapping
