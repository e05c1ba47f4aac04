import Thanos.Library.Table
import Thanos.Migration.TidPerfTable

/-!
# Processing samples

`process_samples` goes through a batch of samples and enters each of them into the table of
thread performance, the memory samples into the table of memory pages as well. Where the pages
are is asked from the kernel before, for all pages of a thread at once, and kept in a map from
addresses to nodes.

* **Locations** (`pagesNodeMap_eq`): the map has, for every page, what the kernel reports to the
  thread that is visited first among those that have sampled the page.
* **Nodes** (`recordsNodes_iff`): a page that several threads have sampled is recorded with the
  node of its own thread exactly when it is on one node for all of them, or the kernel reports an
  error for the thread that is visited first. Which thread that is depends on the order of a hash
  map (`forall_onNodeOfFirst_iff`).
-/

namespace Thanos

variable {R : Type}

/-- What does not change while a batch of samples is processed. -/
structure SampleContext (R : Type) where
  settings : Settings R
  topology : Topology
  mem : MemoryInfo
  /-- What `numa_move_pages` reports about the pages of a thread when it does not move any: the
  node of a page, or a negative number; `none` if the call fails. -/
  movePages : Pid → Option (Addr → ℤ)
  ageingFactor : R

/-- The tables that `process_samples` fills, with the numbers of samples of an iteration. -/
structure SampleTables (R : Type) where
  /-- `thread::perf_table`. -/
  threads : TidPerfTable R
  /-- `memory::perf_table`. -/
  pages : MempagesTable R
  threadMemSamplesIt : ℕ
  memoryMemSamplesIt : ℕ
  numReqSamplesIt : ℕ
  numInsSamplesIt : ℕ

/-- The tables together with the map of `process_samples`. -/
structure SampleState (R : Type) extends SampleTables R where
  pageNodeMap : Addr → Option ℤ

namespace SampleContext

variable (c : SampleContext R)

/-! ### Where the pages are -/

/-- The page of a sample. -/
def pageOf (sample : Pebs) : Addr :=
  c.mem.pageFromAddr sample.sampleAddr

/-- `get_page_current_node`; the status stays 0 if the call fails. -/
def getPageCurrentNode (page : Addr) (pid : Pid) : ℤ :=
  match c.movePages pid with
  | none => 0
  | some status => status page

/-- The status of a page of a thread, -1 if the call fails. -/
def pageNode (pid : Pid) (page : Addr) : ℤ :=
  match c.movePages pid with
  | none => -1
  | some status => status page

/-- `get_pages_current_node`. -/
def getPagesCurrentNode (pages : List Addr) (pid : Pid) : List ℤ :=
  pages.map (c.pageNode pid)

/-- The entry of a thread in `pid_pages_map`, a set of pages. -/
def pidPages (samples : List Pebs) (tid : Pid) : List Addr :=
  ((samples.filter fun sample => sample.isMemSample && sample.tid == tid).map c.pageOf).dedup

/-- An order in which `pid_pages_map` may be visited: every thread with a memory sample once. -/
def IterationOrder (samples : List Pebs) (order : List Pid) : Prop :=
  order.Nodup ∧ ∀ tid, tid ∈ order ↔
    ∃ sample ∈ samples, sample.isMemSample = true ∧ sample.tid = tid

/-- `pages_node_map`. -/
def pagesNodeMap (samples : List Pebs) (order : List Pid) : Addr → Option ℤ :=
  run (fun pageNodeMap tid =>
    let pages := c.pidPages samples tid
    run insertNew pageNodeMap (pages.zip (c.getPagesCurrentNode pages tid))) (fun _ => none) order

/-- The node of the page of a sample, which is asked for if the map does not have it. -/
def findNode (st : SampleState R) (sample : Pebs) : ℤ × SampleState R :=
  let pageAddr := c.pageOf sample
  match st.pageNodeMap pageAddr with
  | none =>
    let pageNode := c.getPageCurrentNode pageAddr sample.pid
    (pageNode,
      { st with pageNodeMap := Function.update st.pageNodeMap pageAddr (some pageNode) })
  | some pageNode => (pageNode, st)

/-! ### Locations -/

/-- The thread that is visited first among those that have sampled a page. -/
def firstThread (samples : List Pebs) (order : List Pid) (page : Addr) : Option Pid :=
  order.find? fun tid => page ∈ c.pidPages samples tid

variable {c} {samples : List Pebs} {order : List Pid} {tid : Pid} {page : Addr} {sample : Pebs}
  {st : SampleState R}

theorem mem_pidPages :
    page ∈ c.pidPages samples tid ↔
      ∃ sample ∈ samples,
        sample.isMemSample = true ∧ sample.tid = tid ∧ c.pageOf sample = page := by
  simp [pidPages, and_assoc]

theorem insertPages_eq {pageNodeMap : Addr → Option ℤ} {pages : List Addr} :
    run insertNew pageNodeMap (pages.zip (c.getPagesCurrentNode pages tid)) page =
      (pageNodeMap page).or (if page ∈ pages then some (c.pageNode tid page) else none) := by
  have hentries : pages.zip (c.getPagesCurrentNode pages tid) =
      pages.map fun page => (page, c.pageNode tid page) := by
    rw [getPagesCurrentNode, List.zip_map_right, List.zip_eq_zipWith, List.zipWith_self,
      List.map_map]
    rfl
  rw [hentries, run_insertNew]

/-- **Locations.** -/
theorem pagesNodeMap_eq :
    c.pagesNodeMap samples order page =
      (c.firstThread samples order page).map fun tid => c.pageNode tid page := by
  suffices h : ∀ pageNodeMap : Addr → Option ℤ,
      run (fun pageNodeMap tid =>
        run insertNew pageNodeMap ((c.pidPages samples tid).zip
          (c.getPagesCurrentNode (c.pidPages samples tid) tid))) pageNodeMap order page =
        (pageNodeMap page).or
          ((c.firstThread samples order page).map fun tid => c.pageNode tid page) from h _
  induction order with
  | nil => simp [firstThread]
  | cons tid order ih =>
    intro pageNodeMap
    rw [run_cons, ih, insertPages_eq, firstThread, firstThread, List.find?_cons]
    by_cases hpage : page ∈ c.pidPages samples tid
    · cases pageNodeMap page <;> simp [hpage]
    · simp [hpage]

theorem IterationOrder.perm {samples' : List Pebs} (horder : IterationOrder samples order)
    (hperm : samples.Perm samples') : IterationOrder samples' order :=
  ⟨horder.1, fun tid => by simp only [horder.2, hperm.mem_iff]⟩

/-- A page that a thread has sampled is in the map. -/
theorem exists_firstThread (horder : IterationOrder samples order) (hsample : sample ∈ samples)
    (hmem : sample.isMemSample = true) :
    ∃ first, c.firstThread samples order (c.pageOf sample) = some first := by
  rw [← Option.isSome_iff_exists, firstThread, List.find?_isSome]
  refine ⟨sample.tid, (horder.2 _).mpr ⟨sample, hsample, hmem, rfl⟩, ?_⟩
  exact decide_eq_true (mem_pidPages.mpr ⟨sample, hsample, hmem, rfl, rfl⟩)

/-- A page of the map is not asked for again. -/
theorem findNode_eq (horder : IterationOrder samples order)
    (hmap : st.pageNodeMap = c.pagesNodeMap samples order) (hsample : sample ∈ samples)
    (hmem : sample.isMemSample = true) :
    ∃ first, c.firstThread samples order (c.pageOf sample) = some first ∧
      c.findNode st sample = (c.pageNode first (c.pageOf sample), st) := by
  obtain ⟨first, hfirst⟩ := exists_firstThread (c := c) horder hsample hmem
  have hfound : st.pageNodeMap (c.pageOf sample) = some (c.pageNode first (c.pageOf sample)) := by
    rw [hmap, pagesNodeMap_eq, hfirst, Option.map_some]
  refine ⟨first, hfirst, ?_⟩
  rw [findNode, hfound]

/-! ### Processing -/

variable [RealT R] (c)

/-- `region_addr`: the fake THP of an address, or its page. -/
def regionAddr (addr : Addr) : Addr :=
  if c.mem.fakeThpEnabled then
    match c.mem.fakeThpFromAddress addr with
    | some thp => thp.start
    | none => c.mem.pageFromAddr addr
  else c.mem.pageFromAddr addr

/-- The data cell of a memory sample. -/
def memorySample (sample : Pebs) (pageNode : ℤ) : MemorySample :=
  .single sample.cpu sample.tid (c.regionAddr sample.sampleAddr) sample.weight.toInt64.toInt
    pageNode.toNat

/-- A memory sample is entered into both tables. -/
def addMemorySample (st : SampleState R) (data : MemorySample) : SampleState R :=
  { st with
    threads := st.threads.addData c.settings c.topology (.mem data)
    threadMemSamplesIt := st.threadMemSamplesIt + 1
    pages := st.pages.addData c.topology data c.ageingFactor
    memoryMemSamplesIt := st.memoryMemSamplesIt + 1 }

/-- `process_memory_sample`. -/
def processMemorySample (st : SampleState R) (sample : Pebs) : Bool × SampleState R :=
  let (pageNode, st) := c.findNode st sample
  if pageNode < 0 then (false, st)
  else (true, c.addMemorySample st (c.memorySample sample pageNode))

/-- The data cell that `process_memory_sample` enters into the tables, if the sample is
accepted. -/
def acceptedSample (st : SampleState R) (sample : Pebs) : Option MemorySample :=
  let pageNode := (c.findNode st sample).1
  if pageNode < 0 then none else some (c.memorySample sample pageNode)

/-- The data cell of a request sample. -/
def reqsSample (sample : Pebs) : ReqsSample :=
  ⟨sample.cpu, sample.tid, sample.value.toInt64.toInt⟩

/-- The data cell of a sample of instructions, which may be floating point operations. -/
def instSample (flop : Bool) (sample : Pebs) : InstSample where
  cpu := sample.cpu
  tid := sample.tid
  time := sample.timeRunning.toInt64.toInt
  inst := sample.value.toInt64.toInt
  multiplier := sample.multiplier
  flop := flop

/-- `process_req_sample`. -/
def processReqSample (st : SampleState R) (sample : Pebs) : Bool × SampleState R :=
  (true, { st with
    threads := st.threads.addData c.settings c.topology (.reqs (reqsSample sample))
    numReqSamplesIt := st.numReqSamplesIt + 1 })

/-- `process_inst_sample`. -/
def processInstSample (st : SampleState R) (sample : Pebs) : Bool × SampleState R :=
  (true, { st with
    threads := st.threads.addData c.settings c.topology (.inst (instSample false sample))
    numInsSamplesIt := st.numInsSamplesIt + 1 })

/-- `process_flops_sample`. -/
def processFlopsSample (st : SampleState R) (sample : Pebs) : Bool × SampleState R :=
  (true, { st with
    threads := st.threads.addData c.settings c.topology (.inst (instSample true sample))
    numInsSamplesIt := st.numInsSamplesIt + 1 })

/-- The switch over the type of a sample. -/
def processSample (st : SampleState R) (sample : Pebs) : SampleState R :=
  match sample.sampleType with
  | .memSample => (c.processMemorySample st sample).2
  | .reqSample => (c.processReqSample st sample).2
  | .insSample => (c.processInstSample st sample).2
  | _ => (c.processFlopsSample st sample).2

/-- The state before the first sample. -/
def start (samples : List Pebs) (order : List Pid) (t : SampleTables R) : SampleState R :=
  { t with pageNodeMap := c.pagesNodeMap samples order }

/-- `process_samples`. -/
def processSamples (samples : List Pebs) (order : List Pid) (t : SampleTables R) :
    SampleTables R :=
  (run c.processSample (c.start samples order t) samples).toSampleTables

/-! ### Nodes -/

variable {c}

/-- What is entered into the tables is the data cell of an accepted sample. -/
theorem processMemorySample_eq :
    c.processMemorySample st sample =
      match c.acceptedSample st sample with
      | none => (false, (c.findNode st sample).2)
      | some data => (true, c.addMemorySample (c.findNode st sample).2 data) := by
  unfold processMemorySample acceptedSample
  obtain ⟨pageNode, st'⟩ := c.findNode st sample
  by_cases hneg : pageNode < 0
  · simp only [if_pos hneg]
  · simp only [if_neg hneg]

/-- The map stays as it is. -/
theorem processSample_pageNodeMap (horder : IterationOrder samples order)
    (hmap : st.pageNodeMap = c.pagesNodeMap samples order) (hsample : sample ∈ samples) :
    (c.processSample st sample).pageNodeMap = c.pagesNodeMap samples order := by
  unfold processSample
  split
  · next htype =>
    have hmem : sample.isMemSample = true := by simp [Pebs.isMemSample, htype]
    obtain ⟨first, -, hfound⟩ := findNode_eq horder hmap hsample hmem
    rw [processMemorySample_eq, hfound]
    cases c.acceptedSample st sample with
    | none => exact hmap
    | some data => exact hmap
  · exact hmap
  · exact hmap
  · exact hmap

/-- Every accepted memory sample is recorded with the node of its page that the kernel reports
to its thread. -/
def RecordsNodes (c : SampleContext R) (samples : List Pebs) (order : List Pid)
    (t : SampleTables R) : Prop :=
  ∀ st sample, (st, sample) ∈ trace c.processSample (c.start samples order t) samples →
    sample.isMemSample = true → ∀ data, c.acceptedSample st sample = some data →
      data.pageNode = c.pageNode sample.tid (c.pageOf sample)

/-- A page that the thread visited first among those that have sampled it has on some node is on
this node for all of them. -/
def OnNodeOfFirst (c : SampleContext R) (samples : List Pebs) (order : List Pid) : Prop :=
  ∀ sample ∈ samples, sample.isMemSample = true →
    ∀ first, c.firstThread samples order (c.pageOf sample) = some first →
      0 ≤ c.pageNode first (c.pageOf sample) →
        c.pageNode first (c.pageOf sample) = c.pageNode sample.tid (c.pageOf sample)

omit [RealT R] in
/-- Whatever thread is visited first, the threads that have sampled a page have it on one node,
or none of them has it on any. -/
theorem forall_onNodeOfFirst_iff :
    (∀ order, IterationOrder samples order → OnNodeOfFirst c samples order) ↔
      ∀ sample ∈ samples, sample.isMemSample = true →
        ∀ sample' ∈ samples, sample'.isMemSample = true → c.pageOf sample = c.pageOf sample' →
          0 ≤ c.pageNode sample.tid (c.pageOf sample) →
            c.pageNode sample.tid (c.pageOf sample) = c.pageNode sample'.tid (c.pageOf sample) := by
  constructor
  · intro h sample hsample hmem sample' hsample' hmem' hpage hnode
    -- an order in which the thread of the first sample is visited first
    let tids := ((samples.filter Pebs.isMemSample).map Pebs.tid).dedup
    have htids : ∀ tid, tid ∈ tids ↔
        ∃ sample ∈ samples, sample.isMemSample = true ∧ sample.tid = tid := by
      simp [tids, and_assoc]
    have htid : sample.tid ∈ tids := (htids _).mpr ⟨sample, hsample, hmem, rfl⟩
    have hperm : tids.Perm (sample.tid :: tids.erase sample.tid) := List.perm_cons_erase htid
    have horder : IterationOrder samples (sample.tid :: tids.erase sample.tid) :=
      ⟨hperm.nodup_iff.mp (List.nodup_dedup _), fun tid => by rw [← hperm.mem_iff, htids]⟩
    have hfirst : c.firstThread samples (sample.tid :: tids.erase sample.tid) (c.pageOf sample') =
        some sample.tid := by
      rw [firstThread, List.find?_cons_of_pos]
      exact decide_eq_true (mem_pidPages.mpr ⟨sample, hsample, hmem, rfl, hpage⟩)
    rw [hpage] at hnode ⊢
    exact h _ horder sample' hsample' hmem' _ hfirst hnode
  · intro h order _ sample' hsample' hmem' first hfirst hnode
    have hpage : c.pageOf sample' ∈ c.pidPages samples first := by
      simpa using List.find?_some hfirst
    obtain ⟨sample, hsample, hmem, rfl, hsame⟩ := mem_pidPages.mp hpage
    rw [← hsame] at hnode ⊢
    exact h sample hsample hmem sample' hsample' hmem' hsame hnode

/-- In every state of the loop the map is the one that was computed before. -/
theorem pageNodeMap_of_mem_trace {t : SampleTables R} (horder : IterationOrder samples order)
    (h : (st, sample) ∈ trace c.processSample (c.start samples order t) samples) :
    st.pageNodeMap = c.pagesNodeMap samples order ∧ sample ∈ samples := by
  obtain ⟨pre, post, hsamples, rfl⟩ := mem_trace.mp h
  have hpre : ∀ sample ∈ pre, sample ∈ samples :=
    fun sample hsample => hsamples ▸ List.mem_append_left _ hsample
  refine ⟨?_, hsamples ▸ List.mem_append_right _ List.mem_cons_self⟩
  exact run_invariant_of_mem
    (I := fun st : SampleState R => st.pageNodeMap = c.pagesNodeMap samples order) rfl
    fun _ sample hsample hmap => processSample_pageNodeMap horder hmap (hpre sample hsample)

/-- **Nodes.** -/
theorem recordsNodes_iff (c : SampleContext R) (t : SampleTables R)
    (horder : IterationOrder samples order) :
    RecordsNodes c samples order t ↔ OnNodeOfFirst c samples order := by
  constructor
  · intro h sample hsample hmem first hfirst hnode
    obtain ⟨st, htrace⟩ : ∃ st, (st, sample) ∈
        trace c.processSample (c.start samples order t) samples := exists_mem_trace hsample
    obtain ⟨hmap, -⟩ := pageNodeMap_of_mem_trace horder htrace
    obtain ⟨first', hfirst', hfound⟩ := findNode_eq horder hmap hsample hmem
    obtain rfl : first = first' := Option.some.inj (hfirst.symm.trans hfirst')
    have haccepted : c.acceptedSample st sample =
        some (c.memorySample sample (c.pageNode first (c.pageOf sample))) := by
      rw [acceptedSample, hfound]
      exact if_neg (not_lt.mpr hnode)
    have hrecorded := h st sample htrace hmem _ haccepted
    rw [← hrecorded]
    exact (Int.toNat_of_nonneg hnode).symm
  · intro h st sample htrace hmem data hdata
    obtain ⟨hmap, hsample⟩ := pageNodeMap_of_mem_trace horder htrace
    obtain ⟨first, hfirst, hfound⟩ := findNode_eq horder hmap hsample hmem
    rw [acceptedSample, hfound] at hdata
    obtain ⟨hnode, hsome⟩ := Option.ite_none_left_eq_some.mp hdata
    obtain rfl := Option.some.inj hsome
    have hnonneg : 0 ≤ c.pageNode first (c.pageOf sample) := not_lt.mp hnode
    rw [← h sample hsample hmem first hfirst hnonneg]
    exact Int.toNat_of_nonneg hnonneg

/-- Small pages of 4 KiB, and the locations that the kernel reports. -/
def smallPages (movePages : Pid → Option (Addr → ℤ)) : SampleContext ℚ where
  settings := Settings.default 1 64
  topology := Topology.regular 2 1 Nat.two_pos Nat.one_pos
  mem := { MemoryInfo.oneRegion with memoryRegions := ∅ }
  movePages := movePages
  ageingFactor := 1

/-- A sample of the second page by a thread. -/
def sampleBy (tid : Pid) : Pebs :=
  { Pebs.new .memSample with pid := tid, tid := tid, sampleAddr := 4100 }

/-- No data yet. -/
def emptyTables : SampleTables ℚ :=
  ⟨.new (Settings.default 1 64), .new (Settings.default 1 64), 0, 0, 0, 0⟩

theorem iterationOrder_shared : IterationOrder [sampleBy 1, sampleBy 2] [1, 2] := by
  refine ⟨by decide, fun tid => ?_⟩
  simp [sampleBy, Pebs.isMemSample, Pebs.new, eq_comm]

/-- Two threads have sampled the same page, which is on node 1 for both of them. -/
theorem recordsNodes_iff_shared :
    RecordsNodes (smallPages fun _ => some fun _ => 1) [sampleBy 1, sampleBy 2] [1, 2]
      emptyTables := by
  have hsame : OnNodeOfFirst (smallPages fun _ => some fun _ => 1) [sampleBy 1, sampleBy 2]
      [1, 2] := fun _ _ _ _ _ _ => rfl
  exact (recordsNodes_iff _ emptyTables iterationOrder_shared).mpr hsame

/-- Two processes use the same address for pages on the nodes 0 and 1: the sample of the second
one is recorded with the node of the first one. -/
theorem not_recordsNodes :
    ¬ ∀ (c : SampleContext ℚ) (samples : List Pebs) (order : List Pid) (t : SampleTables ℚ),
      IterationOrder samples order → RecordsNodes c samples order t := by
  intro h
  have hrecords := h (smallPages fun tid => some fun _ => if tid = 1 then 0 else 1)
    [sampleBy 1, sampleBy 2] [1, 2] emptyTables iterationOrder_shared
  have hnode := hrecords _ (sampleBy 2) (mem_trace.mpr ⟨[sampleBy 1], [], rfl, rfl⟩) rfl _ rfl
  exact absurd hnode (by decide)

end SampleContext

end Thanos
