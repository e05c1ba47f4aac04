import Thanos.Migration.ProcessSamples

/-!
# The order of the samples

What the samples of a batch add to the counters of the threads and of the pages does not depend
on their order, if the node of a page does not depend on the thread. The counters are the state
of an abstract machine: `process_samples` counts the samples one after another (`counts_run`),
and counting two samples commutes (`countSample_comm`).

* **Order** (`processSamples_perm`): a permutation of the batch leaves the same rows, with the
  same counters, ratios and preferred nodes.
-/

namespace Thanos

/-! ### Counters -/

/-- The counters of a thread. -/
@[ext]
structure ThreadCounts where
  flops : Node → ℤ
  inst : Node → ℤ
  totalReqs : Node → ℤ
  times : Node → ℤ
  nodeReqs : Node → ℤ

/-- The counters of a page, and the ratios that have been computed from them. -/
@[ext]
structure PageCounts (R : Type) where
  samplesCount : ℕ
  rawAccesses : Node → ℕ
  nodeAccesses : Node → R
  ratiosComputed : Bool
  ratios : Node → R

/-- A number is added to the counter of a node. -/
def count (node : Node) (n : ℤ) : (Node → ℤ) → Node → ℤ :=
  modifyAt node (· + n)

theorem count_comm {node node' : Node} {n n' : ℤ} {f : Node → ℤ} :
    count node n (count node' n' f) = count node' n' (count node n f) :=
  modifyAt_comm fun _ a => add_right_comm a n' n

/-- The counters of a thread with a sample. -/
def ThreadCounts.addData (T : Topology) (sample : ThreadSample) (r : ThreadCounts) : ThreadCounts :=
  match sample with
  | .mem data => { r with nodeReqs := count data.pageNode data.reqs r.nodeReqs }
  | .reqs data => { r with totalReqs := count (T.cpuNodeMap data.cpu) data.reqs r.totalReqs }
  | .inst data =>
    let node := T.cpuNodeMap data.cpu
    let ops := data.inst * data.multiplier
    { r with
      flops := count node (if data.flop then ops else 0) r.flops
      inst := count node (if data.flop then 0 else ops) r.inst
      times := count node data.time r.times }

theorem ThreadCounts.addData_comm {T : Topology} {sample sample' : ThreadSample}
    {r : ThreadCounts} :
    (r.addData T sample').addData T sample = (r.addData T sample).addData T sample' := by
  cases sample <;> cases sample' <;> simp [addData, count_comm]

variable {R : Type} [RealT R]

/-- The counters of a page with a sample. -/
def PageCounts.addData (agingFactor : R) (sample : MemorySample) (r : PageCounts R) :
    PageCounts R :=
  { r with
    samplesCount := r.samplesCount + 1
    rawAccesses := modifyAt sample.pageNode (· + 1) r.rawAccesses
    nodeAccesses := modifyAt sample.pageNode (· + real 1 * agingFactor) r.nodeAccesses
    ratiosComputed := false }

theorem PageCounts.addData_comm {agingFactor : R} {sample sample' : MemorySample}
    {r : PageCounts R} :
    addData agingFactor sample (addData agingFactor sample' r) =
      addData agingFactor sample' (addData agingFactor sample r) := by
  have hraw : modifyAt sample.pageNode (· + 1) (modifyAt sample'.pageNode (· + 1) r.rawAccesses) =
      modifyAt sample'.pageNode (· + 1) (modifyAt sample.pageNode (· + 1) r.rawAccesses) :=
    modifyAt_comm fun _ _ => rfl
  -- the same number is added to the accesses, so that sums of it have only one value
  have haged : modifyAt sample.pageNode (· + real 1 * agingFactor)
        (modifyAt sample'.pageNode (· + real 1 * agingFactor) r.nodeAccesses) =
      modifyAt sample'.pageNode (· + real 1 * agingFactor)
        (modifyAt sample.pageNode (· + real 1 * agingFactor) r.nodeAccesses) :=
    modifyAt_comm fun _ _ => rfl
  simp [addData, hraw, haged]

/-- The counters of a thread in its row. -/
def TidRow.counts (row : TidRow R) : ThreadCounts :=
  ⟨row.performance.flops, row.performance.inst, row.performance.totalReqs, row.performance.times,
    row.performance.nodeReqs⟩

/-- The counters of a page in its row. -/
def PageRow.counts (row : PageRow R) : PageCounts R :=
  ⟨row.samplesCount, row.rawAccesses, row.nodeAccesses, row.ratiosComputed, row.ratios⟩

omit [RealT R] in
theorem TidRow.counts_addData {T : Topology} {sample : ThreadSample} {row : TidRow R} :
    (row.addData T sample).counts = row.counts.addData T sample := by
  cases sample with
  | mem data => rfl
  | reqs data => rfl
  | inst data =>
    cases hflop : data.flop <;>
      simp [counts, addData, LiveRm3d.addData, LiveRm3d.addInst, ThreadCounts.addData, count,
        modifyAt, hflop]

theorem PageRow.counts_addData {T : Topology} {sample : MemorySample} {agingFactor : R}
    {row : PageRow R} :
    (row.addData T sample agingFactor).counts = row.counts.addData agingFactor sample := by
  simp [counts, addData, PageCounts.addData, modifyAt, sample.reqs_eq_one]

/-! ### The abstract machine -/

/-- The counters of all threads and pages that have a row. -/
structure SampleCounts (R : Type) where
  threads : Pid → Option ThreadCounts
  pages : Addr → Option (PageCounts R)

/-- The counters in the tables. -/
def SampleTables.counts (t : SampleTables R) : SampleCounts R :=
  ⟨fun tid => (t.threads.table tid).map TidRow.counts,
    fun page => (t.pages.table page).map PageRow.counts⟩

/-- The counters of a thread without samples. -/
def ThreadCounts.new : ThreadCounts :=
  ⟨fun _ => 0, fun _ => 0, fun _ => 0, fun _ => 0, fun _ => 0⟩

/-- The counters of a page without samples. -/
def PageCounts.new : PageCounts R :=
  ⟨0, fun _ => 0, fun _ => RealT.ofRat 0, false, fun _ => RealT.ofRat 0⟩

namespace SampleContext

variable (c : SampleContext R) (node : Addr → ℤ)

/-- The data cell of a sample, if it is accepted. -/
def dataOf (sample : Pebs) : Option ThreadSample :=
  match sample.sampleType with
  | .memSample =>
    let pageNode := node (c.pageOf sample)
    if pageNode < 0 then none else some (.mem (c.memorySample sample pageNode))
  | .reqSample => some (.reqs (reqsSample sample))
  | .insSample => some (.inst (instSample false sample))
  | _ => some (.inst (instSample true sample))

/-- A data cell is counted for its thread, and for its page if it has one. -/
def addCounts (r : SampleCounts R) (data : ThreadSample) : SampleCounts R where
  threads := upsert .new data.tid (.addData c.topology data) r.threads
  pages :=
    match data with
    | .mem data => upsert .new data.page (.addData c.ageingFactor data) r.pages
    | .reqs _ => r.pages
    | .inst _ => r.pages

/-- One step of the abstract machine: a sample is counted. -/
def countSample (r : SampleCounts R) (sample : Pebs) : SampleCounts R :=
  match c.dataOf node sample with
  | none => r
  | some data => c.addCounts r data

variable {c node} {r : SampleCounts R} {data data' : ThreadSample} {sample sample' : Pebs}

theorem addCounts_comm :
    c.addCounts (c.addCounts r data') data = c.addCounts (c.addCounts r data) data' := by
  have hthreads : upsert .new data.tid (.addData c.topology data)
        (upsert .new data'.tid (.addData c.topology data') r.threads) =
      upsert .new data'.tid (.addData c.topology data')
        (upsert .new data.tid (.addData c.topology data) r.threads) :=
    upsert_comm fun _ _ => ThreadCounts.addData_comm
  have hpages : ∀ data data' : MemorySample,
      upsert .new data.page (.addData c.ageingFactor data)
        (upsert .new data'.page (.addData c.ageingFactor data') r.pages) =
      upsert .new data'.page (.addData c.ageingFactor data')
        (upsert .new data.page (.addData c.ageingFactor data) r.pages) :=
    fun _ _ => upsert_comm fun _ _ => PageCounts.addData_comm
  cases data <;> cases data' <;> simp only [addCounts, hthreads, hpages]

/-- Counting two samples commutes. -/
theorem countSample_comm :
    c.countSample node (c.countSample node r sample') sample =
      c.countSample node (c.countSample node r sample) sample' := by
  unfold countSample
  cases c.dataOf node sample <;> cases c.dataOf node sample' <;> first | rfl | exact addCounts_comm

/-! ### Simulation -/

variable {t : SampleTables R} {st : SampleState R} {samples samples' : List Pebs}
  {order order' : List Pid}

theorem counts_addThread (settings : Settings R) (T : Topology) (threads : TidPerfTable R)
    (data : ThreadSample) :
    (fun tid => ((threads.addData settings T data).table tid).map TidRow.counts) =
      upsert .new data.tid (.addData T data) fun tid => (threads.table tid).map TidRow.counts := by
  have htable : (threads.addData settings T data).table =
      upsert (.new settings) data.tid (·.addData T data) threads.table := by
    cases data <;> rfl
  rw [htable]
  exact map_upsert fun _ => TidRow.counts_addData

theorem counts_addPage (T : Topology) (pages : MempagesTable R) (data : MemorySample)
    (agingFactor : R) :
    (fun page => ((pages.addData T data agingFactor).table page).map PageRow.counts) =
      upsert .new data.page (.addData agingFactor data) fun page =>
        (pages.table page).map PageRow.counts := by
  have htable : (pages.addData T data agingFactor).table =
      upsert (.new data.tid data.pageNode) data.page (·.addData T data agingFactor) pages.table :=
    rfl
  rw [htable]
  exact map_upsert fun _ => PageRow.counts_addData

/-- The node of every sampled page, as the kernel reports it to any thread. -/
def NodesOf (c : SampleContext R) (node : Addr → ℤ) (samples : List Pebs) : Prop :=
  ∀ sample ∈ samples, sample.isMemSample = true →
    c.pageNode sample.tid (c.pageOf sample) = node (c.pageOf sample)

omit [RealT R] in
theorem findNode_of_nodesOf (horder : IterationOrder samples order)
    (hnode : c.NodesOf node samples) (hmap : st.pageNodeMap = c.pagesNodeMap samples order)
    (hsample : sample ∈ samples) (hmem : sample.isMemSample = true) :
    c.findNode st sample = (node (c.pageOf sample), st) := by
  obtain ⟨first, hfirst, hfound⟩ := findNode_eq horder hmap hsample hmem
  have hpage : c.pageOf sample ∈ c.pidPages samples first := by
    simpa using List.find?_some hfirst
  obtain ⟨sample', hsample', hmem', rfl, hsame⟩ := mem_pidPages.mp hpage
  rw [hfound, ← hsame, hnode sample' hsample' hmem']

theorem counts_addMemorySample (c : SampleContext R) (st : SampleState R) (data : MemorySample) :
    (c.addMemorySample st data).counts = c.addCounts st.counts (.mem data) :=
  congrArg₂ SampleCounts.mk (counts_addThread c.settings c.topology st.threads (.mem data))
    (counts_addPage c.topology st.pages data c.ageingFactor)

theorem counts_addReqs (c : SampleContext R) (t : SampleTables R) (data : ReqsSample) :
    { t with threads := t.threads.addData c.settings c.topology (.reqs data) }.counts =
      c.addCounts t.counts (.reqs data) :=
  congrArg₂ SampleCounts.mk (counts_addThread c.settings c.topology t.threads (.reqs data)) rfl

theorem counts_addInst (c : SampleContext R) (t : SampleTables R) (data : InstSample) :
    { t with threads := t.threads.addData c.settings c.topology (.inst data) }.counts =
      c.addCounts t.counts (.inst data) :=
  congrArg₂ SampleCounts.mk (counts_addThread c.settings c.topology t.threads (.inst data)) rfl

/-- A sample is processed as it is counted. -/
theorem counts_processSample (horder : IterationOrder samples order)
    (hnode : c.NodesOf node samples) (hmap : st.pageNodeMap = c.pagesNodeMap samples order)
    (hsample : sample ∈ samples) :
    (c.processSample st sample).counts = c.countSample node st.counts sample := by
  unfold processSample countSample dataOf
  generalize htype : sample.sampleType = type
  cases type with
  | memSample =>
    have hmem : sample.isMemSample = true := by simp [Pebs.isMemSample, htype]
    have hfound := findNode_of_nodesOf horder hnode hmap hsample hmem
    rw [processMemorySample, hfound]
    by_cases hneg : node (c.pageOf sample) < 0
    · simp only [if_pos hneg]
    · simp only [if_neg hneg]
      exact counts_addMemorySample c st _
  | reqSample => exact counts_addReqs c st.toSampleTables (reqsSample sample)
  | insSample => exact counts_addInst c st.toSampleTables (instSample false sample)
  | _ => exact counts_addInst c st.toSampleTables (instSample true sample)

/-- The batch is processed as it is counted. -/
theorem counts_run (horder : IterationOrder samples order) (hnode : c.NodesOf node samples) :
    (c.processSamples samples order t).counts = run (c.countSample node) t.counts samples := by
  refine run_simulates (I := fun st => st.pageNodeMap = c.pagesNodeMap samples order)
    (fun st : SampleState R => st.counts) rfl (fun _ _ hsample hmap => ?_)
    fun _ _ hsample hmap => ?_
  · exact processSample_pageNodeMap horder hmap hsample
  · exact counts_processSample horder hnode hmap hsample

/-! ### Permutations -/

/-- The counters do not depend on the order of the batch. -/
theorem counts_processSamples_perm (hperm : samples.Perm samples')
    (horder : IterationOrder samples order) (horder' : IterationOrder samples' order')
    (hnode : c.NodesOf node samples) :
    (c.processSamples samples order t).counts = (c.processSamples samples' order' t).counts := by
  have hnode' : c.NodesOf node samples' :=
    fun sample hsample => hnode sample (hperm.mem_iff.mpr hsample)
  rw [counts_run horder hnode, counts_run horder' hnode']
  exact hperm.foldl_eq' (fun _ _ _ _ _ => countSample_comm) t.counts

end SampleContext

/-- What the order of the samples leaves alone of the row of a thread. -/
structure ThreadView where
  flops : Node → ℤ
  inst : Node → ℤ
  totalReqs : Node → ℤ
  times : Node → ℤ
  nodeReqs : Node → ℤ
  preferredNode : Node

/-- What the order of the samples leaves alone of the row of a page. -/
structure PageView (R : Type) where
  samplesCount : ℕ
  rawAccesses : Node → ℕ
  nodeAccesses : Node → R
  ratio : Node → R
  preferredNode : Node

/-- The row of a thread, as it is asked for its counters. -/
def TidRow.view (T : Topology) (row : TidRow R) : ThreadView :=
  let r := row.performance
  ⟨r.flops, r.inst, r.totalReqs, r.times, r.nodeReqs, r.preferredNode T⟩

/-- The row of a page, as it is asked for its counters. -/
def PageRow.view (T : Topology) (row : PageRow R) : PageView R :=
  ⟨row.samplesCount, row.rawAccesses, row.nodeAccesses, row.ratio T, row.preferredNode T⟩

/-- Two tables have the same rows, as far as the order of the samples leaves them alone. -/
structure SameRows (T : Topology) (t t' : SampleTables R) : Prop where
  threads : ∀ tid,
    (t.threads.table tid).map (TidRow.view T) = (t'.threads.table tid).map (TidRow.view T)
  pages : ∀ page,
    (t.pages.table page).map (PageRow.view T) = (t'.pages.table page).map (PageRow.view T)

omit [RealT R] in
theorem TidRow.view_congr {T : Topology} {row row' : TidRow R} (h : row.counts = row'.counts) :
    row.view T = row'.view T := by
  obtain ⟨hflops, hinst, hreqs, htimes, hnode⟩ := ThreadCounts.mk.inj h
  simp only [view, Rm3d.preferredNode, hflops, hinst, hreqs, htimes, hnode]

theorem PageRow.view_congr {T : Topology} {row row' : PageRow R} (h : row.counts = row'.counts) :
    row.view T = row'.view T := by
  obtain ⟨hcount, hraw, haccesses, hcomputed, hratios⟩ := PageCounts.mk.inj h
  have hratio : row.ratio T = row'.ratio T := by
    funext node
    simp only [ratio, hraw, hcomputed, hratios]
  simp only [view, preferredNode, hcount, hraw, haccesses, hratio]

theorem sameRows_of_counts {T : Topology} {t t' : SampleTables R} (h : t.counts = t'.counts) :
    SameRows T t t' := by
  obtain ⟨hthreads, hpages⟩ := SampleCounts.mk.inj h
  exact ⟨fun tid => map_eq_map_of_congr (fun _ _ => TidRow.view_congr) (congrFun hthreads tid),
    fun page => map_eq_map_of_congr (fun _ _ => PageRow.view_congr) (congrFun hpages page)⟩

/-- **Order.** -/
theorem processSamples_perm (c : SampleContext R) (t : SampleTables R) {node : Addr → ℤ}
    {samples samples' : List Pebs} {order order' : List Pid} (hperm : samples.Perm samples')
    (horder : SampleContext.IterationOrder samples order)
    (horder' : SampleContext.IterationOrder samples' order') (hnode : c.NodesOf node samples) :
    SameRows c.topology (c.processSamples samples order t) (c.processSamples samples' order' t) :=
  sameRows_of_counts (SampleContext.counts_processSamples_perm hperm horder horder' hnode)

/-- Two samples of one page and their permutation. -/
theorem processSamples_perm_shared :
    SameRows (Topology.regular 2 1 Nat.two_pos Nat.one_pos)
      ((SampleContext.smallPages fun _ => some fun _ => 1).processSamples
        [SampleContext.sampleBy 1, SampleContext.sampleBy 2] [1, 2] SampleContext.emptyTables)
      ((SampleContext.smallPages fun _ => some fun _ => 1).processSamples
        [SampleContext.sampleBy 2, SampleContext.sampleBy 1] [1, 2] SampleContext.emptyTables) :=
  have hperm : [SampleContext.sampleBy 1, SampleContext.sampleBy 2].Perm
      [SampleContext.sampleBy 2, SampleContext.sampleBy 1] := .swap _ _ _
  have hnode : (SampleContext.smallPages fun _ => some fun _ => 1).NodesOf (fun _ => 1)
      [SampleContext.sampleBy 1, SampleContext.sampleBy 2] := fun _ _ _ => rfl
  processSamples_perm _ SampleContext.emptyTables hperm SampleContext.iterationOrder_shared
    (SampleContext.iterationOrder_shared.perm hperm) hnode

end Thanos
