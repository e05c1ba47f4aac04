import Mathlib.Algebra.BigOperators.Ring.List
import Thanos.Library.Budget
import Thanos.Strategies.Gathering
import Thanos.Strategies.Tmma

/-!
# The migrations of memory pages over whole runs

The table of memory pages is filled with samples. From time to time LMMA or TMMA walks over it,
has the pages that it plans moved, and the table is cleared. A page is planned only if its row has
enough samples, and its row is cleared then.

* **Walks** (`PageStep`, `afforded_plan`): a page that is planned costs eleven of its samples.
* **Moves** (`totalMigrations_of_run`): what is moved was planned, or is prefetched with it.
* **Evidence** (`evidence_of_run`): in a run a page is planned at most once for eleven samples of
  the page, so the pages moved are bounded by the samples.
-/

namespace Thanos

variable {R : Type} [RealT R]

/-- The strategies that plan pages by their samples. -/
inductive PageStrategy
  | lmma
  | tmma

/-- The table of pages, and `memory::total_migrations`. -/
structure MemoryState (R : Type) where
  perfTable : MempagesTable R
  totalMigrations : ℕ

/-- What a call of `perform_strategy` reads. -/
structure MemoryRound where
  memoryInfo : MemoryInfo
  /-- The pages in the order in which the table is visited. -/
  order : List Addr
  granted : MoveAnswers
  /-- The processes in the order in which the batch is visited. -/
  pids : List Pid

/-- What is done with the table of pages. -/
inductive MemoryOp (R : Type)
  | sample (sample : MemorySample) (agingFactor : R)
  | strategy (strategy : PageStrategy) (round : MemoryRound)

namespace PageStrategy

variable (strategy : PageStrategy) (g : MemoryGlobals R) (t : MempagesTable R) (order : List Addr)

/-- `perform_migration_algorithm`. -/
def performMigrationAlgorithm : List (MemMigrationCell R) :=
  match strategy with
  | lmma => Lmma.performMigrationAlgorithm g t order
  | tmma => Tmma.performMigrationAlgorithm g t order

/-- The loop over the table. -/
def walk : Lmma.PagePlan R :=
  match strategy with
  | lmma => Lmma.planPages g t order (Lmma.skipped g order)
  | tmma => Tmma.planPages g t order

/-- What `perform_migration_algorithm` plans and leaves of the table. -/
def plan : Lmma.PagePlan R :=
  if g.topology.numOfNodes = 1 ∨ Lmma.maxPagesToMigrate g order = 0 then .start t
  else strategy.walk g t order

end PageStrategy

section

variable (g : MemoryGlobals R)

/-- `memory::perform_strategy`. -/
def performMemoryStrategy (strategy : PageStrategy) (round : MemoryRound) (st : MemoryState R) :
    MemoryState R :=
  let g := { g with memoryInfo := round.memoryInfo }
  let st :=
    if RealT.ofRat 0 < g.portionMemoryMigrations then
      let migrations := strategy.performMigrationAlgorithm g st.perfTable round.order
      { perfTable := (strategy.plan g st.perfTable round.order).perfTable
        totalMigrations := (gatherAndPerformMigrations round.granted migrations round.pids
          st.totalMigrations).totalMigrations }
    else st
  { st with perfTable := st.perfTable.clearIt g.settings round.memoryInfo }

/-- An operation is performed. -/
def memoryStep (st : MemoryState R) : MemoryOp R → MemoryState R
  | .sample sample agingFactor =>
    { st with perfTable := st.perfTable.addData g.topology sample agingFactor }
  | .strategy strategy round => performMemoryStrategy g strategy round st

/-- The pages that an operation plans, each with those prefetched with it. -/
def plannedBy (e : MemoryState R × MemoryOp R) : List Addr :=
  match e.2 with
  | .sample _ _ => []
  | .strategy strategy round =>
    if RealT.ofRat 0 < g.portionMemoryMigrations then
      (strategy.plan { g with memoryInfo := round.memoryInfo } e.1.perfTable
        round.order).candidates.map Prod.fst
    else []

/-- The pages of the samples. -/
def MemoryOp.sampled : MemoryOp R → List Addr
  | .sample data _ => [data.page]
  | .strategy _ _ => []

end

/-! ### Walks -/

/-- The number of samples that count for a page. -/
def MempagesTable.sampleCount (t : MempagesTable R) (page : Addr) : ℕ :=
  (t.table page).elim 0 PageRow.samplesCount

/-- The pages that are prefetched with a page are no more than some number, nor are those of a fake
THP. -/
structure PrefetchesWithin (g : MemoryGlobals R) (size : ℕ) : Prop where
  prefetch : g.memoryPrefetchSize ≤ size
  thps : g.memoryInfo.fakeThpEnabled = true → ∀ thp ∈ g.memoryInfo.fakeThpRegions,
    (thp.toPages g.memoryInfo.pagesize).length ≤ size

/-- What a step of a walk does: a page is passed over, or it has enough samples, is planned with
the pages to prefetch, and its samples are forgotten. -/
inductive PageStep (g : MemoryGlobals R) (plan : Lmma.PagePlan R) (memPage : Addr) :
    Lmma.PagePlan R → Prop
  | passes {plan' : Lmma.PagePlan R} (hcandidates : plan'.candidates = plan.candidates)
      (hcount : ∀ page, plan'.perfTable.sampleCount page = plan.perfTable.sampleCount page) :
      PageStep g plan memPage plan'
  | plans {plan' : Lmma.PagePlan R} {candidate : AddrRatioMig R}
      (hcandidates : plan'.candidates = plan.candidates ++ [candidate])
      (hpage : candidate.1 = memPage)
      (hsize : ∀ size, PrefetchesWithin g size → candidate.2.2.addr.length ≤ size + 1)
      (henough : 11 ≤ plan.perfTable.sampleCount memPage)
      (hcount : ∀ page, plan'.perfTable.sampleCount page =
        if page = memPage then 0 else plan.perfTable.sampleCount page) :
      PageStep g plan memPage plan'

variable {g : MemoryGlobals R} {t : MempagesTable R} {page memPage : Addr} {info row : PageRow R}
  {plan plan' : Lmma.PagePlan R} {size : ℕ}

omit [RealT R] in
theorem table_setRow_self : (t.setRow page info).table page = some info :=
  Function.update_self _ _ _

omit [RealT R] in
theorem table_setRow_of_ne (h : page ≠ memPage) :
    (t.setRow memPage info).table page = t.table page :=
  Function.update_of_ne h _ _

omit [RealT R] in
theorem sampleCount_setRow : (t.setRow memPage info).sampleCount page =
    if page = memPage then info.samplesCount else t.sampleCount page := by
  by_cases hpage : page = memPage
  · subst hpage
    rw [if_pos rfl, MempagesTable.sampleCount, table_setRow_self]
    rfl
  · rw [if_neg hpage, MempagesTable.sampleCount, table_setRow_of_ne hpage]
    rfl

theorem samplesCount_withRatios {T : Topology} :
    (row.withRatios T).samplesCount = row.samplesCount := by
  obtain ⟨_, _, heq⟩ := PageRow.withRatios_eq T row
  rw [heq]

/-- A row whose ratios are computed still has its samples. -/
theorem sampleCount_setRow_withRatios {T : Topology} (hrow : t.table memPage = some row) :
    (t.setRow memPage (row.withRatios T)).sampleCount page = t.sampleCount page := by
  rw [sampleCount_setRow]
  split_ifs with hpage
  · rw [hpage, samplesCount_withRatios, MempagesTable.sampleCount, hrow]
    rfl
  · rfl

theorem PrefetchesWithin.length_le (h : PrefetchesWithin g size) (t : MempagesTable R)
    (initial : Addr) (dst : Node) : (g.prefetchCandidates t initial dst).length ≤ size := by
  have hsmall : (g.prefetchSmallPages t initial dst).length ≤ size := by
    obtain ⟨k, hk, heq⟩ := MemoryGlobals.exists_prefetchSmallPages_eq g t initial dst
    rw [heq, List.length_map, List.length_range']
    exact hk.trans h.prefetch
  rw [MemoryGlobals.prefetchCandidates]
  split_ifs with hthp
  · split
    · rename_i thp hthp'
      exact h.thps hthp thp (covers_of_lookup hthp').1
    · exact hsmall
  · exact hsmall

/-- A page that is planned has its row cleared. -/
theorem pageStep_of_add {settings : Settings R} {T : Topology} {candidate : AddrRatioMig R}
    {pagesToMigrate : OrderedSet Addr} (hrow : plan.perfTable.table memPage = some row)
    (henough : row.enoughInfo = true) (hpage : candidate.1 = memPage)
    (hsize : ∀ size, PrefetchesWithin g size → candidate.2.2.addr.length ≤ size + 1) :
    PageStep g plan memPage
      { perfTable := plan.perfTable.setRow memPage ((row.withRatios T).clear settings)
        pagesToMigrate
        candidates := plan.candidates ++ [candidate] } := by
  have hsamples : plan.perfTable.sampleCount memPage = row.samplesCount := by
    rw [MempagesTable.sampleCount, hrow]
    rfl
  exact .plans rfl hpage hsize (hsamples ▸ of_decide_eq_true henough) fun _ => sampleCount_setRow

/-- **Walks** of LMMA. -/
theorem Lmma.pageStep (g : MemoryGlobals R) (skip : PageRow R → Bool) (leastSaturatedNode : Node)
    (plan : Lmma.PagePlan R) (memPage : Addr) :
    PageStep g plan memPage (planPage g skip leastSaturatedNode plan memPage) := by
  rcases hinfo : considered g plan memPage with _ | info
  · rw [planPage, hinfo]
    exact .passes rfl fun _ => rfl
  · have hcons := hinfo
    rw [considered] at hcons
    split_ifs at hcons with hmem
    split at hcons
    · cases hcons
    · rename_i row hrow
      split_ifs at hcons with hslow
      obtain rfl := Option.some.inj hcons
      rw [planPage, hinfo]
      dsimp only
      -- a page that is passed over keeps its samples: only its ratios are computed
      split_ifs with hskip
      · exact .passes rfl fun _ => sampleCount_setRow_withRatios hrow
      · exact pageStep_of_add hrow ((Bool.and_eq_true _ _).mp hslow).1 rfl
          fun _ hwithin => Nat.succ_le_succ (hwithin.length_le _ _ _)

/-- **Walks** of TMMA. -/
theorem Tmma.pageStep (g : MemoryGlobals R) (plan : Lmma.PagePlan R) (memPage : Addr) :
    PageStep g plan memPage (planPage g plan memPage) := by
  rcases hinfo : considered g plan memPage with _ | info
  · rw [planPage, hinfo]
    exact .passes rfl fun _ => rfl
  · have hcons := hinfo
    rw [considered] at hcons
    split_ifs at hcons with hmem
    split at hcons
    · cases hcons
    · rename_i row hrow
      split_ifs at hcons with henough
      obtain rfl := Option.some.inj hcons
      rw [planPage, hinfo]
      dsimp only
      -- a page that is planned is paid for, one that is not worth it keeps its samples
      split_ifs with hworth
      · exact pageStep_of_add hrow henough rfl
          fun _ hwithin => Nat.succ_le_succ (hwithin.length_le _ _ _)
      · exact .passes rfl fun _ => sampleCount_setRow_withRatios hrow

/-- What is planned so far has been paid for by the samples of the table `t`. -/
structure Afforded (g : MemoryGlobals R) (t : MempagesTable R) (plan : Lmma.PagePlan R) :
    Prop where
  budget : ∀ page, plan.perfTable.sampleCount page +
    11 * (plan.candidates.map Prod.fst).count page ≤ t.sampleCount page
  size_le : ∀ size, PrefetchesWithin g size →
    ∀ candidate ∈ plan.candidates, candidate.2.2.addr.length ≤ size + 1

omit [RealT R] in
theorem PageStep.afforded (h : PageStep g plan memPage plan') (hplan : Afforded g t plan) :
    Afforded g t plan' := by
  cases h with
  | passes hcandidates hcount =>
    refine ⟨fun page => ?_, ?_⟩
    · rw [hcandidates, hcount]
      exact hplan.budget page
    · rw [hcandidates]
      exact hplan.size_le
  | @plans candidate hcandidates hpage hsize henough hcount =>
    refine ⟨fun page => ?_, ?_⟩
    · -- the page that is planned loses its samples, eleven at least, and is counted once more
      have hbudget := hplan.budget page
      rw [hcandidates, hcount, List.map_append, List.count_append, List.map_singleton, hpage,
        List.count_singleton]
      by_cases heq : page = memPage
      · subst heq
        rw [if_pos rfl, if_pos (beq_self_eq_true page)]
        omega
      · rw [if_neg heq, if_neg (by simpa using Ne.symm heq)]
        omega
    · intro size hwithin
      rw [hcandidates]
      exact List.forall_mem_append.mpr ⟨hplan.size_le size hwithin,
        List.forall_mem_singleton.mpr (hsize size hwithin)⟩

theorem afforded_plan (strategy : PageStrategy) (g : MemoryGlobals R) (t : MempagesTable R)
    (order : List Addr) : Afforded g t (strategy.plan g t order) := by
  have hstart : Afforded g t (.start t) :=
    ⟨fun _ => le_rfl, fun _ _ _ hcandidate => absurd hcandidate List.not_mem_nil⟩
  rw [PageStrategy.plan]
  split_ifs
  · exact hstart
  · cases strategy with
    | lmma =>
      exact run_invariant hstart fun plan page h => (Lmma.pageStep g _ _ plan page).afforded h
    | tmma => exact run_invariant hstart fun plan page h => (Tmma.pageStep g plan page).afforded h

theorem perm_cells (strategy : PageStrategy) (g : MemoryGlobals R) (t : MempagesTable R)
    (order : List Addr) :
    (strategy.performMigrationAlgorithm g t order).Perm
      ((strategy.plan g t order).candidates.map fun candidate => candidate.2.2) := by
  rw [PageStrategy.plan]
  split_ifs with hnone
  · have hempty : strategy.performMigrationAlgorithm g t order = [] := by
      cases strategy <;> rcases hnone with hnodes | hmax <;>
        simp [PageStrategy.performMigrationAlgorithm, Lmma.performMigrationAlgorithm,
          Tmma.performMigrationAlgorithm, *]
    rw [hempty]
    exact .refl _
  · obtain ⟨hnodes, hmax⟩ := not_or.mp hnone
    cases strategy with
    | lmma => exact Lmma.perm_performMigrationAlgorithm t hnodes hmax
    | tmma =>
      rw [PageStrategy.performMigrationAlgorithm, Tmma.performMigrationAlgorithm, if_neg hnodes,
        if_neg hmax]
      split_ifs
      · exact .refl _
      · exact perm_selectBestMigrations _ _

/-! ### Moves -/

omit [RealT R] in
/-- Of a batch at most all pages are moved. -/
theorem totalMigrations_gather_le {granted : MoveAnswers} {migrations : List (MemMigrationCell R)}
    {pids : List Pid} {totalMigrations : ℕ}
    (hpids : Enumerates (migrationsTuples migrations) pids) :
    (gatherAndPerformMigrations granted migrations pids totalMigrations).totalMigrations ≤
      totalMigrations + (batch migrations).length := by
  have hmem : ∀ pid, pid ∈ pids ↔ ∃ m ∈ migrations, m.pid = pid := fun pid =>
    (hpids.mem_iff pid).trans isSome_run_upsert
  -- `move_pages` is called only for processes that have cells
  have hcells : ∀ pid ∈ pids, cellsOf migrations pid ≠ [] := by
    intro pid hpid
    obtain ⟨m, hm, rfl⟩ := (hmem pid).mp hpid
    exact List.ne_nil_of_mem (List.mem_filter.mpr ⟨hm, by simp⟩)
  have hgroups : (pids.flatMap fun pid => batch (cellsOf migrations pid)).length =
      (batch migrations).length := by
    have hperm : (pids.flatMap fun pid => cellsOf migrations pid).Perm migrations :=
      perm_flatMap_filter hpids.nodup fun m hm => (hmem m.pid).mpr ⟨m, hm, rfl⟩
    rw [batch, ← (hperm.flatMap_right MemMigrationCell.pairs).length_eq, List.flatMap_assoc]
    rfl
  have hgranted := ((List.filter_sublist (p := fun pid => granted pid) (l := pids)).flatMap
    fun pid => batch (cellsOf migrations pid)).length_le
  rw [gatherAndPerformMigrations, run_performTuple hcells]
  exact Nat.add_le_add_left (hgranted.trans hgroups.le) _

omit [RealT R] in
theorem length_batch_le {migrations : List (MemMigrationCell R)}
    (hsize : ∀ m ∈ migrations, m.addr.length ≤ size + 1) :
    (batch migrations).length ≤ (size + 1) * migrations.length := by
  induction migrations with
  | nil => exact Nat.zero_le _
  | cons m migrations ih =>
    obtain ⟨hm, hrest⟩ := List.forall_mem_cons.mp hsize
    have hpairs : m.pairs.length = m.addr.length := List.length_map _
    rw [batch, List.flatMap_cons, List.length_append, List.length_cons, Nat.mul_succ, hpairs,
      Nat.add_comm]
    exact Nat.add_le_add (ih hrest) hm

/-! ### Runs -/

theorem sampleCount_addData {sample : MemorySample} {agingFactor : R} {T : Topology} :
    (t.addData T sample agingFactor).sampleCount page =
      t.sampleCount page + [sample.page].count page := by
  by_cases hpage : page = sample.page
  · subst hpage
    have htable : (t.addData T sample agingFactor).table sample.page =
        some (((t.table sample.page).getD (.new sample.tid sample.pageNode)).addData T sample
          agingFactor) := Function.update_self _ _ _
    rw [MempagesTable.sampleCount, htable, MempagesTable.sampleCount, List.count_singleton_self]
    cases t.table sample.page <;> rfl
  · have htable : (t.addData T sample agingFactor).table page = t.table page :=
      Function.update_of_ne hpage _ _
    rw [MempagesTable.sampleCount, htable,
      List.count_eq_zero_of_not_mem (List.mem_singleton.not.mpr hpage)]
    rfl

omit [RealT R] in
theorem sampleCount_clearIt_le {settings : Settings R} {mem : MemoryInfo} :
    (t.clearIt settings mem).sampleCount page ≤ t.sampleCount page := by
  rw [MempagesTable.clearIt]
  split_ifs
  · exact Nat.zero_le _
  · dsimp only [MempagesTable.sampleCount]
    split_ifs
    · exact le_rfl
    · exact Nat.zero_le _

/-- **Evidence**, of one operation. -/
theorem budget_memoryStep (g : MemoryGlobals R) (st : MemoryState R) (op : MemoryOp R)
    (page : Addr) :
    (memoryStep g st op).perfTable.sampleCount page + 11 * (plannedBy g (st, op)).count page ≤
      st.perfTable.sampleCount page + op.sampled.count page := by
  cases op with
  | sample sample agingFactor => exact sampleCount_addData.le
  | strategy which round =>
    have hplan := (afforded_plan which { g with memoryInfo := round.memoryInfo } st.perfTable
      round.order).budget page
    rw [memoryStep, performMemoryStrategy, plannedBy]
    dsimp only
    split_ifs
    · exact (Nat.add_le_add_right sampleCount_clearIt_le _).trans hplan
    · exact Nat.add_le_add_right sampleCount_clearIt_le _

/-- An operation visits the processes of a batch once each, and the pages prefetched with a page are
no more than some number. -/
def MemoryOp.Within (g : MemoryGlobals R) (size : ℕ) (st : MemoryState R) : MemoryOp R → Prop
  | .sample _ _ => True
  | .strategy which round =>
    PrefetchesWithin { g with memoryInfo := round.memoryInfo } size ∧
      Enumerates (migrationsTuples (which.performMigrationAlgorithm
        { g with memoryInfo := round.memoryInfo } st.perfTable round.order)) round.pids

theorem totalMigrations_memoryStep (st : MemoryState R) (op : MemoryOp R)
    (hop : op.Within g size st) :
    (memoryStep g st op).totalMigrations ≤
      st.totalMigrations + (size + 1) * (plannedBy g (st, op)).length := by
  cases op with
  | sample sample agingFactor => exact Nat.le_add_right _ _
  | strategy which round =>
    obtain ⟨hwithin, hpids⟩ := hop
    have hcells := perm_cells which { g with memoryInfo := round.memoryInfo } st.perfTable
      round.order
    have hsizes := (afforded_plan which { g with memoryInfo := round.memoryInfo } st.perfTable
      round.order).size_le size hwithin
    have hlength : ∀ m ∈ which.performMigrationAlgorithm { g with memoryInfo := round.memoryInfo }
        st.perfTable round.order, m.addr.length ≤ size + 1 := by
      intro m hm
      obtain ⟨candidate, hcandidate, rfl⟩ := List.mem_map.mp (hcells.mem_iff.mp hm)
      exact hsizes candidate hcandidate
    rw [memoryStep, performMemoryStrategy, plannedBy]
    dsimp only
    split_ifs
    · refine (totalMigrations_gather_le hpids).trans (Nat.add_le_add_left ?_ _)
      refine (length_batch_le hlength).trans_eq ?_
      rw [hcells.length_eq, List.length_map, List.length_map]
    · exact Nat.le_add_right _ _

variable (g) in
theorem budget_of_run (ops : List (MemoryOp R)) (page : Addr) :
    (run (memoryStep g) ⟨.new g.settings, 0⟩ ops).perfTable.sampleCount page +
        11 * ((trace (memoryStep g) ⟨.new g.settings, 0⟩ ops).flatMap (plannedBy g)).count page ≤
      (ops.flatMap MemoryOp.sampled).count page := by
  have hbudget := run_budget
    (fun st : MemoryState R => st.perfTable.sampleCount page)
    (fun e => e.2.sampled.count page) (fun e => 11 * (plannedBy g e).count page)
    fun st op (_ : (st, op) ∈ trace (memoryStep g) ⟨.new g.settings, 0⟩ ops) =>
      budget_memoryStep g st op page
  have hnew : (MempagesTable.new g.settings : MempagesTable R).sampleCount page = 0 := rfl
  rw [hnew, Nat.zero_add, sum_trace fun op : MemoryOp R => op.sampled.count page,
    List.sum_map_mul_left] at hbudget
  rw [List.count_flatMap, List.count_flatMap]
  exact hbudget

theorem totalMigrations_of_run {ops : List (MemoryOp R)}
    (hops : StepsOfRun (memoryStep g) (fun st op => op.Within g size st) ⟨.new g.settings, 0⟩ ops) :
    (run (memoryStep g) ⟨.new g.settings, 0⟩ ops).totalMigrations ≤
      (size + 1) * ((trace (memoryStep g) ⟨.new g.settings, 0⟩ ops).flatMap
        (plannedBy g)).length := by
  have hmoved := run_budget (fun st : MemoryState R => st.totalMigrations)
    (fun e => (size + 1) * (plannedBy g e).length) (fun _ => 0)
    fun st op hop => totalMigrations_memoryStep st op (hops.of_mem_trace hop)
  rw [Nat.zero_add, List.sum_map_mul_left] at hmoved
  rw [List.length_flatMap]
  exact (Nat.le_add_right _ _).trans hmoved

variable (g) in
/-- **Evidence.** In every run, however LMMA, TMMA and the clearing of the table take turns, a page
is planned at most once for eleven of its samples. So as long as no more than `size` pages are
prefetched with a page, `size + 1` pages are moved for eleven samples at most. -/
theorem evidence_of_run (ops : List (MemoryOp R)) :
    (∀ page, (run (memoryStep g) ⟨.new g.settings, 0⟩ ops).perfTable.sampleCount page +
        11 * ((trace (memoryStep g) ⟨.new g.settings, 0⟩ ops).flatMap (plannedBy g)).count page ≤
      (ops.flatMap MemoryOp.sampled).count page) ∧
    ∀ size, StepsOfRun (memoryStep g) (fun st op => op.Within g size st) ⟨.new g.settings, 0⟩ ops →
      11 * (run (memoryStep g) ⟨.new g.settings, 0⟩ ops).totalMigrations ≤
        (size + 1) * (ops.flatMap MemoryOp.sampled).length := by
  refine ⟨budget_of_run g ops, fun size hops => ?_⟩
  -- what holds of each page holds of all pages together
  have hplanned : 11 * ((trace (memoryStep g) ⟨.new g.settings, 0⟩ ops).flatMap
      (plannedBy g)).length ≤ (ops.flatMap MemoryOp.sampled).length :=
    mul_length_le fun page => (Nat.le_add_left _ _).trans (budget_of_run g ops page)
  calc 11 * (run (memoryStep g) ⟨.new g.settings, 0⟩ ops).totalMigrations
      ≤ 11 * ((size + 1) * ((trace (memoryStep g) ⟨.new g.settings, 0⟩ ops).flatMap
          (plannedBy g)).length) := Nat.mul_le_mul_left 11 (totalMigrations_of_run hops)
    _ = (size + 1) * (11 * ((trace (memoryStep g) ⟨.new g.settings, 0⟩ ops).flatMap
          (plannedBy g)).length) := Nat.mul_left_comm _ _ _
    _ ≤ (size + 1) * (ops.flatMap MemoryOp.sampled).length := Nat.mul_le_mul_left _ hplanned

/-- Eleven samples of a page on node 1 by CPU 0. -/
def elevenSamples : List (MemoryOp ℚ) :=
  List.replicate 11 (.sample (Lmma.access 4096 200 1) 1)

/-- A call of `perform_strategy` after them. -/
def roundAfterSamples : MemoryRound :=
  ⟨Lmma.oneAhead.memoryInfo, [4096], fun _ => true, [1]⟩

/-- The samples and the call. -/
def elevenSamplesRun : List (MemoryOp ℚ) :=
  elevenSamples ++ [.strategy .tmma roundAfterSamples]

/-- TMMA moves the page, and one that is prefetched with it: as many as may be. -/
theorem evidence_of_run_elevenSamples :
    (run (memoryStep Lmma.oneAhead) ⟨.new Lmma.oneAhead.settings, 0⟩
      elevenSamplesRun).totalMigrations = 2 ∧
    11 * (run (memoryStep Lmma.oneAhead) ⟨.new Lmma.oneAhead.settings, 0⟩
      elevenSamplesRun).totalMigrations ≤
        (1 + 1) * (elevenSamplesRun.flatMap MemoryOp.sampled).length := by
  have htotal : (run (memoryStep Lmma.oneAhead) ⟨.new Lmma.oneAhead.settings, 0⟩
      elevenSamplesRun).totalMigrations = 2 := by
    decide +kernel
  have hpids : (PageStrategy.tmma.performMigrationAlgorithm Lmma.oneAhead
      (run (memoryStep Lmma.oneAhead) ⟨.new Lmma.oneAhead.settings, 0⟩ elevenSamples).perfTable
        [4096]).map MemMigrationCell.pid = [1] := by
    decide +kernel
  have hround : MemoryOp.Within Lmma.oneAhead 1
      (run (memoryStep Lmma.oneAhead) ⟨.new Lmma.oneAhead.settings, 0⟩ elevenSamples)
        (.strategy .tmma roundAfterSamples) := by
    refine ⟨⟨le_rfl, fun hthp => absurd hthp (by decide)⟩, List.nodup_singleton 1, fun pid => ?_⟩
    refine Iff.trans (show pid ∈ [1] ↔ _ from ?_) isSome_run_upsert.symm
    rw [← hpids, List.mem_map]
    rfl
  refine ⟨htotal, (evidence_of_run Lmma.oneAhead _).2 1 (stepsOfRun_append.mpr ⟨?_, ?_⟩)⟩
  · intro pre op hpre
    obtain rfl := List.eq_of_mem_replicate (hpre.mem List.mem_concat_self)
    trivial
  · exact stepsOfRun_cons.mpr ⟨hround, stepsOfRun_nil⟩

end Thanos
