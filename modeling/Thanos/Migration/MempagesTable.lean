import Mathlib.Data.List.Dedup
import Thanos.Migration.Performance
import Thanos.Samples.Samples

/-!
# The table of memory pages

`performance::mempages_table` keeps a row for every page that has been sampled, with the
accesses and latencies per node, and the average latencies of the system and of its nodes. A
history is a list of samples, each with the aging factor with which it was recorded.

* **Accessors** (`tracksAccessors_iff`): a row counts the accesses of a page under the node on
  which the page was, and remembers the node of the CPU as the last one; what it reports as the
  preferred and the last node is right exactly when the samples do not tell the two apart.
* **Isolation** (`latenciesIsolated_iff`): `clear_it` forgets the latencies of an iteration if
  fake THPs are disabled; if they are enabled, two histories are told apart later unless their
  statistics are the same.
-/

namespace Thanos

/-- `std::max_element` on a table of the nodes up to `max_node`: the first of the largest. -/
def maxElement {α : Type*} [LT α] [DecidableLT α] (maxNode : Node) (f : Node → α) : Node :=
  (List.range (maxNode + 1)).foldl (fun best node => if f best < f node then node else best) 0

/-- `std::min_element`: the first of the smallest. -/
def minElement {α : Type*} [LT α] [DecidableLT α] (maxNode : Node) (f : Node → α) : Node :=
  (List.range (maxNode + 1)).foldl (fun best node => if f node < f best then node else best) 0

/-- A running average of `count` values takes in a value that counts `reqs` times. -/
def runningAverage (average count value reqs : ℤ) : ℤ :=
  (count * average + value * reqs).tdiv (count + reqs)

/-- `memtable_details::row`. -/
structure PageRow (R : Type) where
  samplesCount : ℕ
  age : ℕ
  ratiosComputed : Bool
  ratios : Node → R
  /-- Raw count of the accesses. -/
  rawAccesses : Node → ℕ
  /-- Accesses with aging. -/
  nodeAccesses : Node → R
  avLatencies : Node → ℤ
  avLatenciesCtr : Node → ℤ
  avLatency : ℤ
  avLatencyCtr : ℤ
  lastPid : Pid
  lastNode : Node

variable {R : Type} [RealT R]

namespace PageRow

variable (settings : Settings R) (T : Topology)

/-- The constructor. -/
def new (lastPid : Pid) (lastNode : Node) : PageRow R where
  samplesCount := 0
  age := 0
  ratiosComputed := false
  ratios _ := RealT.ofRat 0
  rawAccesses _ := 0
  nodeAccesses _ := RealT.ofRat 0
  avLatencies _ := 0
  avLatenciesCtr _ := 0
  avLatency := 0
  avLatencyCtr := 0
  lastPid := lastPid
  lastNode := lastNode

/-- `clear`, which keeps the last thread and node. -/
def clear (row : PageRow R) : PageRow R :=
  { row with
    nodeAccesses := fun _ => RealT.ofRat 0
    rawAccesses := fun _ => 0
    ratios := fun _ => RealT.ofRat 0
    avLatencies := fun _ => settings.minimumLatency
    avLatenciesCtr := fun _ => 0
    avLatency := 0
    avLatencyCtr := 0
    ratiosComputed := false
    samplesCount := 0
    age := 0 }

/-- `add_data`: the accesses are counted under the node of the page, the last node is that of
the CPU. -/
def addData (row : PageRow R) (sample : MemorySample) (agingFactor : R) : PageRow R :=
  let node := sample.pageNode
  { row with
    samplesCount := row.samplesCount + 1
    rawAccesses := Function.update row.rawAccesses node (row.rawAccesses node + 1)
    nodeAccesses := Function.update row.nodeAccesses node
      (row.nodeAccesses node + real sample.reqs * agingFactor)
    avLatencies := Function.update row.avLatencies node
      (runningAverage (row.avLatencies node) (row.avLatenciesCtr node) sample.latency 1)
    avLatenciesCtr := Function.update row.avLatenciesCtr node (row.avLatenciesCtr node + 1)
    avLatency := runningAverage row.avLatency row.avLatencyCtr sample.latency 1
    avLatencyCtr := row.avLatencyCtr + 1
    lastPid := sample.tid
    lastNode := T.cpuNodeMap sample.cpu
    ratiosComputed := false }

variable (row : PageRow R)

/-- `enough_info`. -/
def enoughInfo : Bool :=
  decide (10 < row.samplesCount)

/-- `preferred_node`. -/
def preferredNode : Node :=
  maxElement T.maxNode row.nodeAccesses

/-- `ratio(node)`, computed from the raw counts unless it has been already. -/
def ratio (node : Node) : R :=
  let totalAccesses := (List.range (T.maxNode + 1)).foldl (fun n node => n + row.rawAccesses node) 0
  if row.ratiosComputed || decide (totalAccesses = 0) || decide (node ∉ T.nodes) then
    row.ratios node
  else real (row.rawAccesses node) / real totalAccesses

/-- `compute_ratios`. -/
def computeRatios : PageRow R :=
  let totalAccesses := (List.range (T.maxNode + 1)).foldl (fun n node => n + row.rawAccesses node) 0
  if totalAccesses = 0 then row
  else
    { row with
      ratios := fun node =>
        if node ∈ T.nodes then real (row.rawAccesses node) / real totalAccesses
        else row.ratios node
      ratiosComputed := true }

/-- What a call of `ratios()` leaves of the row. -/
def withRatios : PageRow R :=
  if row.ratiosComputed then row else row.computeRatios T

/-- The samples of a page recorded one after another with one aging factor. -/
def record (agingFactor : R) (row : PageRow R) (samples : List MemorySample) : PageRow R :=
  samples.foldl (fun row sample => row.addData T sample agingFactor) row

/-! ### What a row counts -/

/-- The number of samples issued by the CPUs of a node. -/
def issued (samples : List MemorySample) (node : Node) : ℕ :=
  samples.countP fun sample => T.cpuNodeMap sample.cpu = node

/-- The number of samples at which the page was on a node. -/
def resided (samples : List MemorySample) (node : Node) : ℕ :=
  samples.countP fun sample => sample.pageNode = node

/-- What a number of accesses adds up to with an aging factor, from some value on. -/
def aged (agingFactor : R) (count : ℕ) (value : R) : R :=
  (fun x => x + real 1 * agingFactor)^[count] value

/-- The node on which the page was most of the time: the first one with the most samples, as far
as sums with the aging factor tell. -/
def mostResided (agingFactor : R) (samples : List MemorySample) : Node :=
  maxElement T.maxNode fun node => aged agingFactor (resided samples node) (RealT.ofRat 0)

/-- A row that has just been created or cleared. -/
def Fresh (row : PageRow R) : Prop :=
  (∃ lastPid lastNode, row = new lastPid lastNode) ∨ ∃ row', row = clear settings row'

/-- The preferred node is one whose CPUs issued the most samples, and the last node is that of
the page at the last sample. -/
structure TracksAccessors (samples : List MemorySample) : Prop where
  preferredNode : ∀ node, issued T samples node ≤ issued T samples (row.preferredNode T)
  lastNode : ∀ sample, samples.getLast? = some sample → row.lastNode = sample.pageNode

variable {settings T} {row} {samples : List MemorySample} {sample : MemorySample}
  {agingFactor : R} {node : Node}

/-- Nothing but the ratios changes when they are computed. -/
theorem withRatios_eq (T : Topology) (row : PageRow R) : ∃ ratios computed,
    row.withRatios T = { row with ratios := ratios, ratiosComputed := computed } := by
  rw [withRatios]
  split_ifs with hcomputed
  · exact ⟨row.ratios, row.ratiosComputed, rfl⟩
  · rw [computeRatios]
    split_ifs with hnone
    · exact ⟨row.ratios, row.ratiosComputed, rfl⟩
    · exact ⟨_, true, rfl⟩

theorem Fresh.nodeAccesses (h : Fresh settings row) : row.nodeAccesses node = RealT.ofRat 0 := by
  obtain ⟨lastPid, lastNode, rfl⟩ | ⟨row', rfl⟩ := h
  · rfl
  · rfl

theorem addData_nodeAccesses :
    (row.addData T sample agingFactor).nodeAccesses node =
      aged agingFactor (if sample.pageNode = node then 1 else 0) (row.nodeAccesses node) := by
  by_cases h : sample.pageNode = node
  · subst h
    simp [addData, aged, sample.reqs_eq_one]
  · simp [addData, aged, h, Function.update_of_ne (Ne.symm h)]

/-- A row counts the accesses by the locations of the page. -/
theorem record_nodeAccesses :
    (row.record T agingFactor samples).nodeAccesses node =
      aged agingFactor (resided samples node) (row.nodeAccesses node) := by
  induction samples generalizing row with
  | nil => rfl
  | cons sample samples ih =>
    have hcons : row.record T agingFactor (sample :: samples) =
        (row.addData T sample agingFactor).record T agingFactor samples := rfl
    rw [hcons, ih, addData_nodeAccesses, resided, resided, List.countP_cons, aged, aged, aged,
      Function.iterate_add_apply]
    simp only [decide_eq_true_eq]

/-- A row remembers the node of the CPU of the last sample. -/
theorem record_lastNode (h : samples.getLast? = some sample) :
    (row.record T agingFactor samples).lastNode = T.cpuNodeMap sample.cpu := by
  obtain ⟨front, rfl⟩ := List.getLast?_eq_some_iff.mp h
  rw [record, List.foldl_append]
  rfl

/-- **Accessors.** -/
theorem tracksAccessors_iff (h : Fresh settings row) :
    (row.record T agingFactor samples).TracksAccessors T samples ↔
      (∀ node, issued T samples node ≤ issued T samples (mostResided T agingFactor samples)) ∧
      ∀ sample, samples.getLast? = some sample → T.cpuNodeMap sample.cpu = sample.pageNode := by
  have hpreferred : (row.record T agingFactor samples).preferredNode T =
      mostResided T agingFactor samples := by
    have haccesses : (row.record T agingFactor samples).nodeAccesses = fun node =>
        aged agingFactor (resided samples node) (RealT.ofRat 0) := by
      funext node
      rw [record_nodeAccesses, h.nodeAccesses]
    rw [preferredNode, haccesses, mostResided]
  constructor
  · rintro ⟨hissued, hlast⟩
    rw [hpreferred] at hissued
    refine ⟨hissued, fun sample hsample => ?_⟩
    have hnode := hlast sample hsample
    rw [record_lastNode hsample] at hnode
    exact hnode
  · rintro ⟨hissued, hlast⟩
    refine ⟨?_, fun sample hsample => ?_⟩
    · rw [hpreferred]
      exact hissued
    · rw [record_lastNode hsample]
      exact hlast sample hsample

/-- One access from CPU 0, which is on node 0, to a page on node 1. -/
def remoteAccess : MemorySample :=
  .single 0 1 4096 200 1

/-- The row of the page reports node 1 as the preferred and node 0 as the last node. -/
theorem tracksAccessors_iff_remoteAccess :
    ¬ ((new 1 1 : PageRow ℚ).record (Topology.regular 2 1 Nat.two_pos Nat.one_pos) 1
        [remoteAccess]).TracksAccessors
      (Topology.regular 2 1 Nat.two_pos Nat.one_pos) [remoteAccess] := by
  intro h
  have hfresh : Fresh (Settings.default 1 64) (new 1 1 : PageRow ℚ) := .inl ⟨1, 1, rfl⟩
  have hlocal := ((tracksAccessors_iff hfresh).mp h).2 remoteAccess rfl
  exact absurd hlocal (by decide)

/-- A row does not tell the accessors of a page from its locations. -/
theorem not_tracksAccessors :
    ¬ ∀ (settings : Settings ℚ) (T : Topology) (row : PageRow ℚ) (agingFactor : ℚ)
      (samples : List MemorySample), Fresh settings row →
      (row.record T agingFactor samples).TracksAccessors T samples := by
  intro h
  have hrow := h (Settings.default 1 64) (Topology.regular 2 1 Nat.two_pos Nat.one_pos) (new 1 1) 1
    [remoteAccess] (.inl ⟨1, 1, rfl⟩)
  have hlast : Topology.cpuNodeMap (Topology.regular 2 1 Nat.two_pos Nat.one_pos) 0 = 1 :=
    hrow.lastNode remoteAccess rfl
  exact absurd hlast (by decide)

end PageRow

/-- `performance::mempages_table`. -/
structure MempagesTable (R : Type) where
  table : Addr → Option (PageRow R)
  accesses : ℤ
  avLatency : ℤ
  nodeLatencies : Node → ℤ
  nodeAccesses : Node → ℤ

namespace MempagesTable

variable (settings : Settings R) (T : Topology)

/-- The constructor. -/
def new : MempagesTable R where
  table _ := none
  accesses := 0
  avLatency := settings.minimumLatency
  nodeLatencies _ := settings.minimumLatency
  nodeAccesses _ := 0

/-- `clear_it`. -/
def clearIt (mem : MemoryInfo) (t : MempagesTable R) : MempagesTable R :=
  if mem.fakeThpEnabled then { t with table := fun _ => none }
  else
    { table := fun addr => if mem.contains addr then t.table addr else none
      accesses := 0
      avLatency := settings.minimumLatency
      nodeLatencies := fun _ => settings.minimumLatency
      nodeAccesses := fun _ => 0 }

/-- `add_data`. -/
def addData (t : MempagesTable R) (sample : MemorySample) (agingFactor : R) : MempagesTable R :=
  let row := (t.table sample.page).getD (PageRow.new sample.tid sample.pageNode)
  let node := sample.pageNode
  { table := Function.update t.table sample.page (some (row.addData T sample agingFactor))
    nodeLatencies := Function.update t.nodeLatencies node
      (runningAverage (t.nodeLatencies node) (t.nodeAccesses node) sample.latency sample.reqs)
    nodeAccesses := Function.update t.nodeAccesses node (t.nodeAccesses node + sample.reqs)
    avLatency := runningAverage t.avLatency t.accesses sample.latency sample.reqs
    accesses := t.accesses + sample.reqs }

/-- The table after a history of samples with their aging factors. -/
def record (t : MempagesTable R) (history : List (MemorySample × R)) : MempagesTable R :=
  history.foldl (fun t e => t.addData T e.1 e.2) t

/-- `rel_latency`, of a row. -/
def relLatency (t : MempagesTable R) (info : PageRow R) : ℤ :=
  (info.avLatency * 100).tdiv t.avLatency

/-- A row is overwritten. -/
def setRow (t : MempagesTable R) (page : Addr) (info : PageRow R) : MempagesTable R :=
  { t with table := Function.update t.table page (some info) }

/-- `node_min_av_latency`. -/
def nodeMinAvLatency (t : MempagesTable R) : Node :=
  minElement T.maxNode t.nodeLatencies

/-- An order in which the map may be visited: every page with a row once. -/
def IterationOrder (t : MempagesTable R) (order : List Addr) : Prop :=
  order.Nodup ∧ ∀ page, page ∈ order ↔ (t.table page).isSome = true

/-! ### What the latencies depend on -/

/-- Two tables report the same average latencies. -/
def SameLatencies (t t' : MempagesTable R) : Prop :=
  t.avLatency = t'.avLatency ∧ ∀ node, t.nodeLatencies node = t'.nodeLatencies node

/-- Two tables have the same average latencies, each of as many accesses. -/
def SameStatistics (t t' : MempagesTable R) : Prop :=
  SameLatencies t t' ∧ t.accesses = t'.accesses ∧ ∀ node, t.nodeAccesses node = t'.nodeAccesses node

variable {settings T} {t t' : MempagesTable R} {history : List (MemorySample × R)}
  {sample : MemorySample} {agingFactor : R} {mem : MemoryInfo}

/-- The pages with a row are those that had one and those of the samples. -/
theorem isSome_record_iff {page : Addr} :
    ((t.record T history).table page).isSome = true ↔
      (t.table page).isSome = true ∨ ∃ e ∈ history, e.1.page = page := by
  induction history generalizing t with
  | nil => simp [record]
  | cons e history ih =>
    have hcons : t.record T (e :: history) = (t.addData T e.1 e.2).record T history := rfl
    rw [hcons, ih]
    by_cases h : e.1.page = page
    · simp [addData, h]
    · simp [addData, h, Function.update_of_ne (Ne.symm h)]

/-- The pages of the samples, each of them once. -/
theorem iterationOrder_record {order : List Addr}
    (horder : order.Perm (history.map fun e => e.1.page).dedup) :
    ((new settings : MempagesTable R).record T history).IterationOrder order := by
  refine ⟨horder.nodup_iff.mpr (List.nodup_dedup _), fun page => ?_⟩
  have hnew : ((new settings : MempagesTable R).table page).isSome ≠ true := Bool.false_ne_true
  rw [isSome_record_iff, or_iff_right hnew, horder.mem_iff, List.mem_dedup, List.mem_map]

theorem SameStatistics.addData (h : SameStatistics t t') :
    SameStatistics (t.addData T sample agingFactor) (t'.addData T sample agingFactor) := by
  obtain ⟨⟨hav, hlat⟩, hacc, hnode⟩ := h
  refine ⟨⟨?_, fun node => ?_⟩, ?_, fun node => ?_⟩
  · simp only [MempagesTable.addData, hav, hacc]
  · simp only [MempagesTable.addData, Function.update_apply, hlat, hnode]
  · simp only [MempagesTable.addData, hacc]
  · simp only [MempagesTable.addData, Function.update_apply, hnode]

/-- Tables with the same statistics keep them the same. -/
theorem SameStatistics.record (h : SameStatistics t t') :
    SameStatistics (t.record T history) (t'.record T history) := by
  induction history generalizing t t' with
  | nil => exact h
  | cons e history ih => exact ih h.addData

omit [RealT R] in
/-- With fake THPs disabled the statistics are reset. -/
theorem sameStatistics_clearIt (h : mem.fakeThpEnabled = false) :
    SameStatistics (t.clearIt settings mem) (t'.clearIt settings mem) := by
  simp [clearIt, h, SameStatistics, SameLatencies]

omit [RealT R] in
/-- With fake THPs enabled they stay as they are. -/
theorem sameStatistics_clearIt_iff (h : mem.fakeThpEnabled = true) :
    SameStatistics (t.clearIt settings mem) (t'.clearIt settings mem) ↔ SameStatistics t t' := by
  simp [clearIt, h, SameStatistics, SameLatencies]

/-- The counters are numbers of samples. -/
theorem record_accesses_nonneg (h : 0 ≤ t.accesses ∧ ∀ node, 0 ≤ t.nodeAccesses node) :
    0 ≤ (t.record T history).accesses ∧ ∀ node, 0 ≤ (t.record T history).nodeAccesses node := by
  induction history generalizing t with
  | nil => exact h
  | cons e history ih =>
    refine ih ⟨?_, fun node => ?_⟩
    · simp only [addData, e.1.reqs_eq_one]
      omega
    · have hnode := h.2 node
      have hpage := h.2 e.1.pageNode
      simp only [addData, e.1.reqs_eq_one, Function.update_apply]
      split_ifs
      · omega
      · exact hnode

/-! ### Running averages -/

theorem tdiv_of_remainder {quotient count remainder : ℤ} (hq : 0 ≤ quotient)
    (hr : 0 ≤ remainder) (hlt : remainder < count) :
    (quotient * count + remainder).tdiv count = quotient := by
  have hcount : 0 < count := hr.trans_lt hlt
  rw [Int.tdiv_eq_ediv_of_nonneg (by positivity), add_comm,
    Int.add_mul_ediv_right _ _ hcount.ne', Int.ediv_eq_zero_of_lt hr hlt, zero_add]

/-- Equal averages of fewer and of more values are told apart by the next value. -/
theorem exists_runningAverage_ne (average : ℤ) {count count' : ℤ} (hcount : 0 ≤ count)
    (hlt : count < count') :
    ∃ latency,
      runningAverage average count latency 1 ≠ runningAverage average count' latency 1 := by
  have hpos : 0 < count + 1 := by omega
  obtain haverage | haverage := le_or_gt 0 average
  · -- one more for the first, too little to move the second
    refine ⟨average + (count + 1), ?_⟩
    have hfirst : count * average + (average + (count + 1)) * 1 =
        (average + 1) * (count + 1) + 0 := by ring
    have hsecond : count' * average + (average + (count + 1)) * 1 =
        average * (count' + 1) + (count + 1) := by ring
    rw [runningAverage, runningAverage, hfirst, hsecond,
      tdiv_of_remainder (by omega) le_rfl hpos, tdiv_of_remainder haverage hpos.le (by omega)]
    omega
  · refine ⟨average - (count + 1), ?_⟩
    have hfirst : count * average + (average - (count + 1)) * 1 =
        -((-average + 1) * (count + 1) + 0) := by ring
    have hsecond : count' * average + (average - (count + 1)) * 1 =
        -(-average * (count' + 1) + (count + 1)) := by ring
    rw [runningAverage, runningAverage, hfirst, hsecond, Int.neg_tdiv, Int.neg_tdiv,
      tdiv_of_remainder (by omega) le_rfl hpos, tdiv_of_remainder (by omega) hpos.le (by omega)]
    omega

/-- Averages that react to every next value in the same way are of as many values. -/
theorem count_eq_of_runningAverage (average : ℤ) {count count' : ℤ} (hcount : 0 ≤ count)
    (hcount' : 0 ≤ count')
    (h : ∀ latency,
      runningAverage average count latency 1 = runningAverage average count' latency 1) :
    count = count' := by
  obtain hlt | heq | hlt := lt_trichotomy count count'
  · obtain ⟨latency, hne⟩ := exists_runningAverage_ne average hcount hlt
    exact absurd (h latency) hne
  · exact heq
  · obtain ⟨latency, hne⟩ := exists_runningAverage_ne average hcount' hlt
    exact absurd (h latency).symm hne

/-! ### Isolation -/

/-- A sample of the memory of a node with some latency. -/
def probe (node : Node) (latency : ℤ) : MemorySample :=
  .single 0 0 0 latency node

/-- Two tables report the same latencies after every continuation exactly when they have the
same statistics. -/
theorem forall_sameLatencies_record_iff
    (ht : 0 ≤ t.accesses ∧ ∀ node, 0 ≤ t.nodeAccesses node)
    (ht' : 0 ≤ t'.accesses ∧ ∀ node, 0 ≤ t'.nodeAccesses node) :
    (∀ s : List (MemorySample × R), SameLatencies (t.record T s) (t'.record T s)) ↔
      SameStatistics t t' := by
  refine ⟨fun h => ?_, fun h s => h.record.1⟩
  obtain ⟨hav, hlat⟩ : SameLatencies t t' := h []
  refine ⟨⟨hav, hlat⟩, count_eq_of_runningAverage t.avLatency ht.1 ht'.1 fun latency => ?_,
    fun node => count_eq_of_runningAverage (t.nodeLatencies node) (ht.2 node) (ht'.2 node)
      fun latency => ?_⟩
  · have hnext := (h [(probe 0 latency, RealT.ofRat 1)]).1
    simpa only [record, List.foldl_cons, List.foldl_nil, addData, probe, MemorySample.single,
      ← hav] using hnext
  · have hnext := (h [(probe node latency, RealT.ofRat 1)]).2 node
    simpa only [record, List.foldl_cons, List.foldl_nil, addData, probe, MemorySample.single,
      Function.update_self, ← hlat node] using hnext

/-- The latencies that a table reports after two histories, `clear_it` and a continuation. -/
def LatenciesIsolated (settings : Settings R) (T : Topology) (mem : MemoryInfo)
    (h1 h2 s : List (MemorySample × R)) : Prop :=
  SameLatencies ((((new settings).record T h1).clearIt settings mem).record T s)
    ((((new settings).record T h2).clearIt settings mem).record T s)

/-- **Isolation.** -/
theorem latenciesIsolated_iff (settings : Settings R) (T : Topology) (mem : MemoryInfo)
    (h1 h2 : List (MemorySample × R)) :
    (∀ s, LatenciesIsolated settings T mem h1 h2 s) ↔
      mem.fakeThpEnabled = false ∨
        SameStatistics ((new settings).record T h1) ((new settings).record T h2) := by
  cases hmode : mem.fakeThpEnabled with
  | false =>
    refine iff_of_true (fun s => ?_) (.inl rfl)
    exact (sameStatistics_clearIt hmode).record.1
  | true =>
    have hnew : 0 ≤ (new settings).accesses ∧ ∀ node, 0 ≤ (new settings).nodeAccesses node :=
      ⟨le_rfl, fun _ => le_rfl⟩
    have hcounters : ∀ h : List (MemorySample × R),
        0 ≤ (((new settings).record T h).clearIt settings mem).accesses ∧
          ∀ node, 0 ≤ (((new settings).record T h).clearIt settings mem).nodeAccesses node := by
      intro h
      simpa only [clearIt, hmode, if_true] using record_accesses_nonneg hnew
    rw [Bool.true_eq_false, false_or, ← sameStatistics_clearIt_iff hmode,
      ← forall_sameLatencies_record_iff (T := T) (hcounters h1) (hcounters h2)]
    rfl

/-- Fake THPs of 2 MiB. -/
def fakeThps : MemoryInfo where
  pagesize := 4096
  memoryRegions := ∅
  fakeThpSize := 512
  fakeThpRegions := ∅

/-- With fake THPs the latency of a sample outlives `clear_it`. -/
theorem not_latenciesIsolated :
    ¬ ∀ (settings : Settings ℚ) (T : Topology) (mem : MemoryInfo)
      (h1 h2 s : List (MemorySample × ℚ)), LatenciesIsolated settings T mem h1 h2 s := by
  intro h
  have hlatency := (h (Settings.default 1 64) (Topology.regular 2 1 Nat.two_pos Nat.one_pos)
    fakeThps [(probe 0 200, 1)] [] []).1
  exact absurd hlatency (by decide +kernel)

end MempagesTable

end Thanos
