import Thanos.Migration.AverageLatencies
import Thanos.Strategies.Lmma

/-!
# The latencies of the memory pages over whole runs

The table of memory pages is filled with samples, cleared, and walked over by LMMA, which divides
the latencies of pages and nodes by the average latency of the table.

* **Terms** (`addDataTerms`, `PageSafe`): the integers that are computed on the way, of which the
  machine keeps 64 bits, and the divisors.
* **Sums** (`TableBounded.step`): every average is of positive latencies that add up to at most the
  sum of all latencies of the run, in either mode of fake THPs.
* **Safety** (`latencies_safe`): as long as a hundred times that sum fits, every term fits, and the
  average latency of the table is at least 1.
-/

namespace Thanos

variable {R : Type}

/-- An integer is represented by 64 bits. -/
def FitsInt64 (n : ℤ) : Prop :=
  -2 ^ 63 ≤ n ∧ n < 2 ^ 63

/-- An operation on the table of memory pages, with the memory regions at that moment. -/
inductive PagesOp (R : Type)
  | addData (sample : MemorySample) (agingFactor : R)
  | clearIt (mem : MemoryInfo)
  | lmma (mem : MemoryInfo) (order : List Addr)

namespace PagesOp

/-- The latency that an operation brings in. -/
def latency : PagesOp R → ℤ
  | addData sample _ => sample.latency
  | clearIt _ => 0
  | lmma _ _ => 0

/-- The sampled latencies are positive. -/
def Positive : PagesOp R → Prop
  | addData sample _ => 1 ≤ sample.latency
  | clearIt _ => True
  | lmma _ _ => True

end PagesOp

/-- The sum of all latencies of a run. -/
def latencySum (ops : List (PagesOp R)) : ℤ :=
  (ops.map PagesOp.latency).sum

variable {ops pre : List (PagesOp R)} {op : PagesOp R}

theorem latencySum_concat :
    latencySum (ops ++ [op]) = latencySum ops + op.latency := by
  simp [latencySum]

theorem PagesOp.Positive.latency_nonneg (h : op.Positive) : 0 ≤ op.latency := by
  cases op with
  | addData sample agingFactor =>
    have hpos : 1 ≤ sample.latency := h
    exact zero_le_one.trans hpos
  | clearIt _ => exact le_rfl
  | lmma _ _ => exact le_rfl

theorem latencySum_nonneg (hops : ∀ op ∈ ops, op.Positive) :
    0 ≤ latencySum ops := by
  refine List.sum_nonneg fun latency hlatency => ?_
  obtain ⟨op, hop, rfl⟩ := List.mem_map.mp hlatency
  exact (hops op hop).latency_nonneg

/-- The sum of a run is not below that of a part of it. -/
theorem latencySum_le_of_prefix (hops : ∀ op ∈ ops, op.Positive)
    (hpre : pre <+: ops) : latencySum pre ≤ latencySum ops := by
  obtain ⟨rest, rfl⟩ := hpre
  have hrest := latencySum_nonneg fun op hop => hops op (List.mem_append_right pre hop)
  have hsum : latencySum (pre ++ rest) = latencySum pre + latencySum rest := by
    simp [latencySum]
  omega

/-! ### Bounds -/

/-- The averages of a row are of positive latencies that add up to some bound at most. -/
structure RowBounded (bound : ℤ) (row : PageRow R) : Prop where
  average : RunningMean.Bounded bound ⟨row.avLatency, row.avLatencyCtr⟩
  averageAt : ∀ node, RunningMean.Bounded bound ⟨row.avLatencies node, row.avLatenciesCtr node⟩
  avLatency_eq : row.avLatencyCtr = 0 → row.avLatency = 0

/-- The averages of the table and of its rows are of positive latencies that add up to some bound
at most; an average of none is the minimum latency. -/
structure TableBounded (minimumLatency bound : ℤ) (t : MempagesTable R) : Prop where
  average : RunningMean.Bounded bound ⟨t.avLatency, t.accesses⟩
  avLatency_pos : 1 ≤ t.avLatency
  averageAt : ∀ node, RunningMean.Bounded bound ⟨t.nodeLatencies node, t.nodeAccesses node⟩
  nodeLatencies_eq : ∀ node, t.nodeAccesses node = 0 → t.nodeLatencies node = minimumLatency
  rows : ∀ page row, t.table page = some row → RowBounded bound row

variable {settings : Settings R} {bound bound' minimumLatency : ℤ} {row : PageRow R}
  {t : MempagesTable R} {mem : MemoryInfo}

theorem RowBounded.mono (h : RowBounded bound row) (hle : bound ≤ bound') :
    RowBounded bound' row :=
  ⟨h.average.mono hle, fun node => (h.averageAt node).mono hle, h.avLatency_eq⟩

theorem tableBounded_new (hmin : 1 ≤ settings.minimumLatency) :
    TableBounded settings.minimumLatency 0 (.new settings) where
  average := RunningMean.bounded_of_count_eq_zero rfl le_rfl
  avLatency_pos := hmin
  averageAt _ := RunningMean.bounded_of_count_eq_zero rfl le_rfl
  nodeLatencies_eq _ _ := rfl
  rows page row hrow := by cases hrow

/-- In one mode the rows are dropped, in the other one the averages are reset. -/
theorem TableBounded.clearIt (h : TableBounded settings.minimumLatency bound t)
    (hbound : 0 ≤ bound) (hmin : 1 ≤ settings.minimumLatency) :
    TableBounded settings.minimumLatency bound (t.clearIt settings mem) := by
  unfold MempagesTable.clearIt
  split_ifs
  · exact ⟨h.average, h.avLatency_pos, h.averageAt, h.nodeLatencies_eq, fun _ _ hrow => by
      cases hrow⟩
  · refine ⟨RunningMean.bounded_of_count_eq_zero rfl hbound, hmin,
      fun _ => RunningMean.bounded_of_count_eq_zero rfl hbound, fun _ _ => rfl,
      fun page row hrow => ?_⟩
    simp only at hrow
    split_ifs at hrow
    exact h.rows page row hrow

theorem TableBounded.setRow (h : TableBounded minimumLatency bound t) {page : Addr}
    (hrow : RowBounded bound row) : TableBounded minimumLatency bound (t.setRow page row) := by
  refine ⟨h.average, h.avLatency_pos, h.averageAt, h.nodeLatencies_eq, fun page' row' hrow' => ?_⟩
  by_cases hpage : page' = page
  · subst hpage
    simp only [MempagesTable.setRow, Function.update_self, Option.some.injEq] at hrow'
    rwa [← hrow']
  · simp only [MempagesTable.setRow, Function.update_of_ne hpage] at hrow'
    exact h.rows page' row' hrow'

/-- The relative latency of a row fits. -/
theorem RowBounded.fits (h : RowBounded bound row) (hbound : 0 ≤ bound)
    (hsum : 100 * bound < 2 ^ 63) : FitsInt64 (row.avLatency * 100) := by
  have hnonneg : 0 ≤ row.avLatencyCtr := h.average.count_nonneg
  by_cases hcount : row.avLatencyCtr = 0
  · rw [h.avLatency_eq hcount]
    constructor <;> norm_num
  · have hpos : 0 < row.avLatencyCtr := by omega
    have hone : 1 ≤ row.avLatency := h.average.one_le_average hpos
    have hle : row.avLatency ≤ bound := h.average.average_le hpos
    constructor <;> omega

/-- The latency of a node compared to that of the system fits. -/
theorem TableBounded.fits (h : TableBounded minimumLatency bound t) (hmin : 1 ≤ minimumLatency)
    (hint : minimumLatency < 2 ^ 31) (hsum : 100 * bound < 2 ^ 63) (node : Node) :
    FitsInt64 (t.nodeLatencies node * 100) := by
  have hnonneg : 0 ≤ t.nodeAccesses node := (h.averageAt node).count_nonneg
  by_cases hcount : t.nodeAccesses node = 0
  · rw [h.nodeLatencies_eq node hcount]
    constructor <;> omega
  · have hpos : 0 < t.nodeAccesses node := by omega
    have hone : 1 ≤ t.nodeLatencies node := (h.averageAt node).one_le_average hpos
    have hle : t.nodeLatencies node ≤ bound := (h.averageAt node).average_le hpos
    constructor <;> omega

/-! ### Terms -/

variable [RealT R]

variable (g : MemoryGlobals R) (t : MempagesTable R)

/-- What `perform_migration_algorithm` of LMMA leaves of the table. -/
def Lmma.tableAfter (order : List Addr) : MempagesTable R :=
  if g.topology.numOfNodes = 1 ∨ Lmma.maxPagesToMigrate g order = 0 then t
  else (Lmma.planPages g t order (Lmma.skipped g order)).perfTable

/-- An operation is performed. -/
def pagesStep (t : MempagesTable R) : PagesOp R → MempagesTable R
  | .addData sample agingFactor => t.addData g.topology sample agingFactor
  | .clearIt mem => t.clearIt g.settings mem
  | .lmma mem order => Lmma.tableAfter { g with memoryInfo := mem } t order

/-- What is computed for a running average: the products, their sum and the new counter. -/
def averageTerms (m : RunningMean) (value reqs : ℤ) : List ℤ :=
  [m.count * m.average, value * reqs, m.count * m.average + value * reqs, m.count + reqs]

/-- What `add_data` computes for the averages of the row and of the table. -/
def addDataTerms (sample : MemorySample) : List ℤ :=
  let row := (t.table sample.page).getD (PageRow.new sample.tid sample.pageNode)
  let node := sample.pageNode
  averageTerms ⟨row.avLatencies node, row.avLatenciesCtr node⟩ sample.latency 1 ++
    averageTerms ⟨row.avLatency, row.avLatencyCtr⟩ sample.latency 1 ++
    averageTerms ⟨t.nodeLatencies node, t.nodeAccesses node⟩ sample.latency sample.reqs ++
    averageTerms ⟨t.avLatency, t.accesses⟩ sample.latency sample.reqs

/-- The tests on one page neither overflow nor divide by zero: the relative latency, which is
computed if the row has enough samples, and `is_node_saturated` for the preferred node, if the row
is not skipped. -/
structure Lmma.PageSafe (skip : PageRow R → Bool) (plan : Lmma.PagePlan R) (memPage : Addr) :
    Prop where
  divisor : plan.perfTable.avLatency ≠ 0
  relLatency : memPage ∉ plan.pagesToMigrate → ∀ info, plan.perfTable.table memPage = some info →
    info.enoughInfo = true → FitsInt64 (info.avLatency * 100)
  saturated : ∀ info, Lmma.considered g plan memPage = some info → skip info = false →
    FitsInt64 (plan.perfTable.nodeLatencies (info.preferredNode g.topology) * 100)

/-- No term of an operation overflows, and no divisor is zero. -/
def OpSafe (t : MempagesTable R) : PagesOp R → Prop
  | .addData sample _ => ∀ term ∈ addDataTerms t sample, FitsInt64 term
  | .clearIt _ => True
  | .lmma mem order =>
    let g := { g with memoryInfo := mem }
    g.topology.numOfNodes = 1 ∨ Lmma.maxPagesToMigrate g order = 0 ∨
      StepsOfRun (Lmma.planPage g (Lmma.skipped g order) (t.nodeMinAvLatency g.topology))
        (Lmma.PageSafe g (Lmma.skipped g order)) (.start t) order

/-! ### Sums -/

variable {g t} {sample : MemorySample} {agingFactor : R} {order : List Addr} {node : Node}

theorem rowBounded_new {lastPid : Pid} {lastNode : Node} (hbound : 0 ≤ bound) :
    RowBounded bound (PageRow.new lastPid lastNode : PageRow R) :=
  ⟨RunningMean.bounded_of_count_eq_zero rfl hbound,
    fun _ => RunningMean.bounded_of_count_eq_zero rfl hbound, fun _ => rfl⟩

theorem rowBounded_clear (hbound : 0 ≤ bound) : RowBounded bound (row.clear g.settings) :=
  ⟨RunningMean.bounded_of_count_eq_zero rfl hbound,
    fun _ => RunningMean.bounded_of_count_eq_zero rfl hbound, fun _ => rfl⟩

/-- An average that takes in a positive latency. -/
theorem bounded_mean_step {σ ι : Type} (a : LatencyAverage σ ι) {s : σ} (op : ι) {latency : ℤ}
    (h : RunningMean.Bounded bound (a.mean s)) (hlatency : 1 ≤ latency)
    (hop : ∀ l, a.latency op = some l → l = latency) :
    RunningMean.Bounded (bound + latency) (a.mean (a.step s op)) := by
  rw [a.mean_step]
  rcases hl : a.latency op with _ | l
  · exact h.mono (by omega)
  · obtain rfl := hop l hl
    have hproduct : 0 ≤ (a.mean s).count * (a.mean s).average :=
      h.count_nonneg.trans h.count_le
    have htake := h.take hlatency
    rwa [← LatencyAverage.runningAverage_eq_take hproduct (by omega)] at htake

theorem latencyAt_eq {latency : ℤ} (h : sample.latencyAt node = some latency) :
    latency = sample.latency := by
  rw [MemorySample.latencyAt] at h
  split_ifs at h
  exact (Option.some.inj h).symm

theorem RowBounded.addData (h : RowBounded bound row) (hlatency : 1 ≤ sample.latency) :
    RowBounded (bound + sample.latency) (row.addData g.topology sample agingFactor) where
  average := bounded_mean_step (PageRow.average R g.topology) (sample, agingFactor)
    h.average hlatency fun _ hl => (Option.some.inj hl).symm
  averageAt node := bounded_mean_step (PageRow.averageAt R g.topology node)
    (sample, agingFactor) (h.averageAt node) hlatency fun _ hl => latencyAt_eq hl
  avLatency_eq hcount := by
    have hpos := h.average.count_nonneg
    have hzero : row.avLatencyCtr + 1 = 0 := hcount
    simp only at hpos
    omega

theorem RowBounded.withRatios (h : RowBounded bound row) {T : Topology} :
    RowBounded bound (row.withRatios T) := by
  unfold PageRow.withRatios PageRow.computeRatios
  dsimp only
  split_ifs
  · exact h
  · exact h
  · exact ⟨h.average, h.averageAt, h.avLatency_eq⟩

/-- The row that a sample is entered into. -/
theorem TableBounded.rowOf (h : TableBounded minimumLatency bound t) (hbound : 0 ≤ bound)
    (sample : MemorySample) :
    RowBounded bound ((t.table sample.page).getD (.new sample.tid sample.pageNode)) := by
  rcases hrow : t.table sample.page with _ | row
  · exact rowBounded_new hbound
  · exact h.rows sample.page row hrow

theorem TableBounded.addData (h : TableBounded minimumLatency bound t) (hbound : 0 ≤ bound)
    (hlatency : 1 ≤ sample.latency) :
    TableBounded minimumLatency (bound + sample.latency)
      (t.addData g.topology sample agingFactor) := by
  have haverage := bounded_mean_step (MempagesTable.average R g.topology)
    (sample, agingFactor) h.average hlatency fun _ hl => (Option.some.inj hl).symm
  have hcount : 0 < (t.addData g.topology sample agingFactor).accesses := by
    have hnonneg : 0 ≤ t.accesses := h.average.count_nonneg
    simp only [MempagesTable.addData, sample.reqs_eq_one]
    omega
  refine ⟨haverage, haverage.one_le_average hcount, fun node => ?_, fun node hzero => ?_,
    fun page row hrow => ?_⟩
  · exact bounded_mean_step (MempagesTable.averageAt R g.topology node)
      (sample, agingFactor) (h.averageAt node) hlatency fun _ hl => latencyAt_eq hl
  · have hnonneg := (h.averageAt node).count_nonneg
    by_cases hnode : node = sample.pageNode
    · subst hnode
      simp only [MempagesTable.addData, Function.update_self, sample.reqs_eq_one] at hzero hnonneg
      omega
    · simp only [MempagesTable.addData, Function.update_of_ne hnode] at hzero ⊢
      exact h.nodeLatencies_eq node hzero
  · by_cases hpage : page = sample.page
    · subst hpage
      simp only [MempagesTable.addData, Function.update_self, Option.some.injEq] at hrow
      rw [← hrow]
      exact (h.rowOf hbound sample).addData hlatency
    · simp only [MempagesTable.addData, Function.update_of_ne hpage] at hrow
      exact (h.rows page row hrow).mono (by omega)

namespace Lmma

variable {skip : PageRow R → Bool} {leastSaturatedNode : Node} {plan : PagePlan R}
  {memPage : Addr} {info : PageRow R}

/-- A page that is considered has a row, whose ratios are computed. -/
theorem exists_of_considered (h : considered g plan memPage = some info) :
    ∃ row, plan.perfTable.table memPage = some row ∧ info = row.withRatios g.topology := by
  unfold considered at h
  split_ifs at h with hmem
  rcases hrow : plan.perfTable.table memPage with _ | row
  · simp [hrow] at h
  · simp only [hrow] at h
    split_ifs at h
    exact ⟨row, rfl, (Option.some.inj h).symm⟩

/-- LMMA clears rows and computes ratios. -/
theorem tableBounded_planPage (h : TableBounded minimumLatency bound plan.perfTable)
    (hbound : 0 ≤ bound) :
    TableBounded minimumLatency bound
      (planPage g skip leastSaturatedNode plan memPage).perfTable := by
  unfold planPage
  rcases hinfo : considered g plan memPage with _ | info
  · exact h
  · obtain ⟨row, hrow, rfl⟩ := exists_of_considered hinfo
    have hratios := (h.rows memPage row hrow).withRatios (T := g.topology)
    dsimp only
    split_ifs
    · exact h.setRow hratios
    · exact h.setRow (rowBounded_clear hbound)

theorem tableBounded_planPages (h : TableBounded minimumLatency bound t) (hbound : 0 ≤ bound)
    (pages : List Addr) :
    TableBounded minimumLatency bound
      (run (planPage g skip leastSaturatedNode) (.start t) pages).perfTable :=
  run_invariant (I := fun plan : PagePlan R => TableBounded minimumLatency bound plan.perfTable) h
    fun _ _ hplan => tableBounded_planPage hplan hbound

theorem tableBounded_tableAfter (h : TableBounded minimumLatency bound t) (hbound : 0 ≤ bound) :
    TableBounded minimumLatency bound (tableAfter g t order) := by
  unfold tableAfter
  split_ifs
  · exact h
  · exact tableBounded_planPages h hbound order

end Lmma

/-- **Sums**: one operation. -/
theorem TableBounded.step {op : PagesOp R} (h : TableBounded g.settings.minimumLatency bound t)
    (hbound : 0 ≤ bound) (hmin : 1 ≤ g.settings.minimumLatency) (hop : op.Positive) :
    TableBounded g.settings.minimumLatency (bound + op.latency) (pagesStep g t op) := by
  cases op with
  | addData sample agingFactor => exact h.addData hbound hop
  | clearIt mem =>
    rw [PagesOp.latency, add_zero]
    exact h.clearIt hbound hmin
  | lmma mem order =>
    rw [PagesOp.latency, add_zero]
    exact Lmma.tableBounded_tableAfter h hbound

/-- **Sums**: a run. -/
theorem tableBounded_run {ops : List (PagesOp R)} (hmin : 1 ≤ g.settings.minimumLatency)
    (hops : ∀ op ∈ ops, op.Positive) :
    TableBounded g.settings.minimumLatency (latencySum ops)
      (run (pagesStep g) (.new g.settings) ops) := by
  induction ops using List.reverseRecOn with
  | nil => exact tableBounded_new hmin
  | append_singleton ops op ih =>
    have hbefore : ∀ op ∈ ops, op.Positive := fun op hop => hops op (List.mem_append_left _ hop)
    rw [run_concat, latencySum_concat]
    exact (ih hbefore).step (latencySum_nonneg hbefore) hmin (hops op (by simp))

/-! ### Safety -/

/-- What is computed for an average that takes in a positive latency. -/
theorem fits_averageTerms {m : RunningMean} {latency term : ℤ} (h : m.Bounded bound)
    (hlatency : 1 ≤ latency) (hsum : bound + latency < 2 ^ 63)
    (hterm : term ∈ averageTerms m latency 1) : FitsInt64 term := by
  have hcount := h.count_nonneg
  have hle := h.count_le
  have hproduct := h.le_bound
  simp only [averageTerms, List.mem_cons, List.not_mem_nil, or_false, mul_one] at hterm
  obtain rfl | rfl | rfl | rfl := hterm <;> constructor <;> omega

theorem fits_addDataTerms (h : TableBounded minimumLatency bound t) (hbound : 0 ≤ bound)
    (hlatency : 1 ≤ sample.latency) (hsum : bound + sample.latency < 2 ^ 63) :
    ∀ term ∈ addDataTerms t sample, FitsInt64 term := by
  intro term hterm
  have hrow := h.rowOf hbound sample
  simp only [addDataTerms, sample.reqs_eq_one, List.mem_append] at hterm
  obtain ((hterm | hterm) | hterm) | hterm := hterm
  · exact fits_averageTerms (hrow.averageAt _) hlatency hsum hterm
  · exact fits_averageTerms hrow.average hlatency hsum hterm
  · exact fits_averageTerms (h.averageAt _) hlatency hsum hterm
  · exact fits_averageTerms h.average hlatency hsum hterm

theorem Lmma.pageSafe {skip : PageRow R → Bool} {plan : Lmma.PagePlan R} {memPage : Addr}
    (h : TableBounded minimumLatency bound plan.perfTable) (hbound : 0 ≤ bound)
    (hmin : 1 ≤ minimumLatency) (hint : minimumLatency < 2 ^ 31)
    (hsum : 100 * bound < 2 ^ 63) : Lmma.PageSafe g skip plan memPage where
  divisor := by
    have hpos := h.avLatency_pos
    omega
  relLatency _ info hinfo _ := (h.rows memPage info hinfo).fits hbound hsum
  saturated _ _ _ := h.fits hmin hint hsum _

/-- **Safety**, of one operation. -/
theorem TableBounded.opSafe (h : TableBounded g.settings.minimumLatency bound t)
    (hbound : 0 ≤ bound) (hmin : 1 ≤ g.settings.minimumLatency)
    (hint : g.settings.minimumLatency < 2 ^ 31) (hop : op.Positive)
    (hsum : 100 * (bound + op.latency) < 2 ^ 63) : OpSafe g t op := by
  have hlatency := hop.latency_nonneg
  cases op with
  | addData sample agingFactor => exact fits_addDataTerms h hbound hop (by
      simp only [PagesOp.latency] at hsum hlatency
      omega)
  | clearIt mem => trivial
  | lmma mem order =>
    refine .inr (.inr fun pre page _ => ?_)
    exact Lmma.pageSafe (Lmma.tableBounded_planPages h hbound pre) hbound hmin hint (by
      simp only [PagesOp.latency] at hsum
      omega)

/-- **Safety.** The minimum latency is an `int`. -/
theorem latencies_safe (g : MemoryGlobals R) (ops : List (PagesOp R))
    (hmin : 1 ≤ g.settings.minimumLatency) (hint : g.settings.minimumLatency < 2 ^ 31)
    (hops : ∀ op ∈ ops, op.Positive) (hsum : 100 * latencySum ops < 2 ^ 63) :
    AlongRun (pagesStep g) (fun t => 1 ≤ t.avLatency) (.new g.settings) ops ∧
      StepsOfRun (pagesStep g) (OpSafe g) (.new g.settings) ops := by
  constructor
  · intro pre hpre
    exact (tableBounded_run hmin fun op hop => hops op (hpre.subset hop)).avLatency_pos
  · intro pre op hpre
    have hbefore : ∀ op ∈ pre, op.Positive := fun op hop =>
      hops op (hpre.subset (List.mem_append_left _ hop))
    have hle := latencySum_le_of_prefix hops hpre
    rw [latencySum_concat] at hle
    exact (tableBounded_run hmin hbefore).opSafe (latencySum_nonneg hbefore) hmin hint
      (hops op (hpre.subset (by simp))) (by omega)

/-- Eleven slow samples and one fast one, LMMA, and the same again after `clear_it`. -/
def twoIterations : List (PagesOp ℚ) :=
  let samples := List.replicate 11 (Lmma.access 4096 400 0) ++ [Lmma.access 8192 10 1]
  let iteration := samples.map (.addData · 1) ++ [.lmma Lmma.oneAhead.memoryInfo [4096, 8192]]
  iteration ++ .clearIt Lmma.oneAhead.memoryInfo :: iteration

theorem latencies_safe_twoIterations :
    AlongRun (pagesStep Lmma.oneAhead) (fun t => 1 ≤ t.avLatency)
        (.new Lmma.oneAhead.settings) twoIterations ∧
      StepsOfRun (pagesStep Lmma.oneAhead) (OpSafe Lmma.oneAhead)
        (.new Lmma.oneAhead.settings) twoIterations := by
  refine latencies_safe Lmma.oneAhead twoIterations (by decide) (by decide) ?_ (by decide)
  simp [twoIterations, PagesOp.Positive, Lmma.access, MemorySample.single]

end Thanos
