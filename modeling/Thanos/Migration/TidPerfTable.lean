import Thanos.Migration.MempagesTable
import Thanos.Migration.Planning

/-!
# The table of thread performance

`performance::tid_perf_table` keeps the counters of every thread, fills them from the samples of
an iteration and computes from them the performance of the threads and the means over the
threads of a process. The planners read it as a `PerfTable`.

* **Updates** (`update_update`): a second update in the same instant recomputes the same rows.
* **Means** (`update_meanPerfPid`): an update adds the performances of an iteration to the mean
  that is there already, and divides by their number.
-/

namespace Thanos

variable {R : Type} [RealT R]

/-- A sample for the table of thread performance. -/
inductive ThreadSample
  | mem (sample : MemorySample)
  | reqs (sample : ReqsSample)
  | inst (sample : InstSample)

/-- The thread of a sample. -/
def ThreadSample.tid : ThreadSample → Pid
  | mem sample => sample.tid
  | reqs sample => sample.tid
  | inst sample => sample.tid

/-- `performance::rm3d`, with the marks of the nodes whose performance is to be computed. -/
structure LiveRm3d (R : Type) extends Rm3d R where
  /-- 3DyRM performance needs to be recalculated. -/
  perfsUpdate : Node → Bool

namespace LiveRm3d

variable (settings : Settings R) (T : Topology) (r : LiveRm3d R)

/-- The constructor. -/
def new : LiveRm3d R :=
  { Rm3d.new settings with perfsUpdate := fun _ => false }

/-- `add_data(inst_sample_t)`. -/
def addInst (data : InstSample) : LiveRm3d R :=
  let node := T.cpuNodeMap data.cpu
  let ops := data.inst * data.multiplier
  { r with
    flops := if data.flop then Function.update r.flops node (r.flops node + ops) else r.flops
    inst := if data.flop then r.inst else Function.update r.inst node (r.inst node + ops)
    times := Function.update r.times node (r.times node + data.time)
    perfsUpdate := Function.update r.perfsUpdate node true }

/-- `add_data(reqs_sample_t)`. -/
def addReqs (data : ReqsSample) : LiveRm3d R :=
  let node := T.cpuNodeMap data.cpu
  { r with
    totalReqs := Function.update r.totalReqs node (r.totalReqs node + data.reqs)
    perfsUpdate := Function.update r.perfsUpdate node true }

/-- `add_data(memory_sample_t)`. -/
def addMem (data : MemorySample) : LiveRm3d R :=
  let dstNode := data.pageNode
  { r with
    meanLat := Function.update r.meanLat dstNode
      (runningAverage (r.meanLat dstNode) (r.nodeReqs dstNode) data.latency data.reqs)
    nodeReqs := Function.update r.nodeReqs dstNode (r.nodeReqs dstNode + data.reqs)
    perfsUpdate := Function.update r.perfsUpdate (T.cpuNodeMap data.cpu) true }

/-- `add_data`. -/
def addData : ThreadSample → LiveRm3d R
  | .mem data => r.addMem T data
  | .reqs data => r.addReqs T data
  | .inst data => r.addInst T data

/-- The counters of a node tell how it performs. -/
def hasData (node : Node) : Bool :=
  decide (r.times node ≠ 0) && decide (r.totalReqs node ≠ 0)

/-- `calc_perf(node)`, the performance. -/
def nodePerf (node : Node) : R :=
  if r.hasData node then
    Rm3d.calcPerf (r.opsPerSecond node) (r.opsPerByte settings node) (r.avLatency settings node)
  else performanceInvalidValue

/-- The nodes for which `calc_perf` computes something. -/
def outdated (node : Node) : Bool :=
  decide (node ∈ T.nodes) && r.perfsUpdate node

/-- `calc_perf()`, for every node on its own. Without data the mark stays; else the performance
is the one of this moment and has not decayed. -/
def calcPerf : LiveRm3d R :=
  { r with
    perfs := fun node => if r.outdated T node then r.nodePerf settings node else r.perfs node
    perfsUpdate := fun node => r.perfsUpdate node && !(r.outdated T node && r.hasData node)
    decay := fun node =>
      if r.outdated T node && r.hasData node then RealT.ofRat 1 else r.decay node }

/-- `reset`, which leaves the performance and its marks. -/
def reset : LiveRm3d R :=
  { r with
    flops := fun node => if node ∈ T.nodes then 0 else r.flops node
    inst := fun node => if node ∈ T.nodes then 0 else r.inst node
    totalReqs := fun node => if node ∈ T.nodes then 0 else r.totalReqs node
    times := fun node => if node ∈ T.nodes then 0 else r.times node
    nodeReqs := fun node => if node ∈ T.nodes then 0 else r.nodeReqs node
    meanLat := fun node => if node ∈ T.nodes then 0 else r.meanLat node }

variable {settings T r} {node : Node}

theorem calcPerf_perfs :
    (r.calcPerf settings T).perfs node =
      if r.outdated T node then r.nodePerf settings node else r.perfs node :=
  rfl

theorem calcPerf_decay :
    (r.calcPerf settings T).decay node =
      if r.outdated T node && r.hasData node then RealT.ofRat 1 else r.decay node :=
  rfl

/-- **Updates** of the performance compute nothing twice. -/
theorem calcPerf_calcPerf :
    (r.calcPerf settings T).calcPerf settings T = r.calcPerf settings T := by
  have hdata : ∀ node, (r.calcPerf settings T).hasData node = r.hasData node := fun _ => rfl
  have hperf : ∀ node, (r.calcPerf settings T).nodePerf settings node = r.nodePerf settings node :=
    fun _ => rfl
  have houtdated : ∀ node, (r.calcPerf settings T).outdated T node =
      (r.outdated T node && !r.hasData node) := by
    intro node
    simp only [outdated, calcPerf]
    cases decide (node ∈ T.nodes) <;> cases r.perfsUpdate node <;> simp
  rw [calcPerf, LiveRm3d.mk.injEq, Rm3d.mk.injEq]
  refine ⟨⟨rfl, rfl, rfl, rfl, rfl, rfl, ?_, ?_⟩, ?_⟩
  · funext node
    rw [houtdated, hperf, calcPerf_perfs]
    cases r.outdated T node <;> simp
  · funext node
    rw [houtdated, hdata]
    cases r.hasData node <;> simp
  · funext node
    rw [houtdated, hdata]
    cases r.hasData node <;> simp

end LiveRm3d

/-- `performance::details::row`. -/
structure TidRow (R : Type) where
  performance : LiveRm3d R
  /-- Is the thread running? -/
  running : Bool

namespace TidRow

variable (settings : Settings R) (T : Topology) (row : TidRow R)

/-- The constructor. -/
def new : TidRow R :=
  ⟨.new settings, false⟩

/-- `clear`. -/
def clear : TidRow R :=
  ⟨row.performance.reset T, false⟩

/-- `add_data`. -/
def addData (sample : ThreadSample) : TidRow R :=
  ⟨row.performance.addData T sample, true⟩

/-- `calc_perf`. -/
def calcPerf : TidRow R :=
  { row with performance := row.performance.calcPerf settings T }

/-- `check_running`, for one row; `running` says whether its thread is running. -/
def checkRunning (running : Bool) : TidRow R :=
  if !row.running && running then { row with running := true } else row

/-- The row as the planners see it. -/
def toPerfRow : PerfRow R :=
  ⟨row.performance.toRm3d, row.running⟩

end TidRow

/-- `performance::tid_perf_table`. -/
structure TidPerfTable (R : Type) where
  table : Pid → Option (TidRow R)
  /-- `mean_perf_pid_`, zero for a process without an entry. -/
  meanPerfPid : Pid → R
  /-- `mean_cpu_use_pid_`, zero for a process without an entry. -/
  meanCpuUsePid : Pid → R
  totalPerformance : R
  meanPerf : R
  meanCpuUse : R
  accesses : ℤ
  avLatency : ℤ
  /-- `av_latencies_[src][dst]`. -/
  avLatencies : Node → Node → ℤ
  memAccesses : Node → Node → ℤ

/-- The variables of the loop of `calc_perf`. -/
structure PerfSums (R : Type) where
  t : TidPerfTable R
  tempMean : R
  tempCpu : R
  validPerf : ℕ
  validPerfPid : Pid → ℕ

namespace TidPerfTable

variable (settings : Settings R) (T : Topology) (s : System R) (order : List Pid)
  (t : TidPerfTable R)

/-- The constructor. -/
def new : TidPerfTable R where
  table _ := none
  meanPerfPid _ := RealT.ofRat 0
  meanCpuUsePid _ := RealT.ofRat 0
  totalPerformance := RealT.ofRat 0
  meanPerf := RealT.ofRat 0
  meanCpuUse := RealT.ofRat 0
  accesses := 0
  avLatency := settings.minimumLatency
  avLatencies _ _ := settings.minimumLatency
  memAccesses _ _ := 0

/-- A row is overwritten. -/
def setRow (tid : Pid) (row : TidRow R) : TidPerfTable R :=
  { t with table := Function.update t.table tid (some row) }

/-- `add_data`; a memory sample counts for the latencies of the system as well. -/
def addData (sample : ThreadSample) : TidPerfTable R :=
  let row := (t.table sample.tid).getD (.new settings)
  let t := t.setRow sample.tid (row.addData T sample)
  match sample with
  | .mem data =>
    let src := T.cpuNodeMap data.cpu
    let dst := data.pageNode
    { t with
      avLatencies := Function.update t.avLatencies src (Function.update (t.avLatencies src) dst
        (runningAverage (t.avLatencies src dst) (t.memAccesses src dst) data.latency data.reqs))
      memAccesses := Function.update t.memAccesses src (Function.update (t.memAccesses src) dst
        (t.memAccesses src dst + data.reqs))
      avLatency := runningAverage t.avLatency t.accesses data.latency data.reqs
      accesses := t.accesses + data.reqs }
  | .reqs _ => t
  | .inst _ => t

/-- The table after a sequence of samples. -/
def record (samples : List ThreadSample) : TidPerfTable R :=
  samples.foldl (fun t sample => t.addData settings T sample) t

/-- `clear_it`, which drops the threads that are not alive. -/
def clearIt (isPidAlive : Pid → Bool) : TidPerfTable R :=
  { table := fun tid => if isPidAlive tid then (t.table tid).map (TidRow.clear T) else none
    meanPerfPid := fun _ => RealT.ofRat 0
    meanCpuUsePid := fun _ => RealT.ofRat 0
    totalPerformance := RealT.ofRat 0
    meanPerf := t.meanPerf
    meanCpuUse := t.meanCpuUse
    accesses := 0
    avLatency := settings.minimumLatency
    avLatencies := fun src dst =>
      if src ∈ T.nodes then settings.minimumLatency else t.avLatencies src dst
    memAccesses := fun src dst => if src ∈ T.nodes then 0 else t.memAccesses src dst }

/-- `check_running`. -/
def checkRunning : TidPerfTable R :=
  { t with table := fun tid => (t.table tid).map fun row => row.checkRunning (s.isRunning tid) }

/-- A valid performance is added to the sums. -/
def addPerf (sums : PerfSums R) (pid : Pid) (perf cpuUse : R) : PerfSums R :=
  let t := sums.t
  { t :=
      { t with
        totalPerformance := t.totalPerformance + perf
        meanPerfPid := Function.update t.meanPerfPid pid (t.meanPerfPid pid + perf)
        meanCpuUsePid := Function.update t.meanCpuUsePid pid (t.meanCpuUsePid pid + cpuUse) }
    tempMean := sums.tempMean + perf
    tempCpu := sums.tempCpu + cpuUse
    validPerf := sums.validPerf + 1
    validPerfPid := Function.update sums.validPerfPid pid (sums.validPerfPid pid + 1) }

/-- The body of the loop of `calc_perf`. -/
def calcPerfStep (sums : PerfSums R) (tid : Pid) : PerfSums R :=
  match sums.t.table tid with
  | none => sums
  | some row =>
    if row.running then
      let row := row.calcPerf settings T
      let sums := { sums with t := sums.t.setRow tid row }
      let perf := row.performance.perfNode (s.proc tid).pinnedNumaNode
      if perf < RealT.ofRat 0 then sums
      else addPerf sums (s.pidFromTid tid) perf (s.proc tid).cpuUse
    else sums

/-- A mean that is not a normal number is replaced by one. -/
def normalised (mean : R) : R :=
  if RealT.isNormal mean then mean else RealT.ofRat 1

/-- The variables before the loop of `calc_perf`. -/
def sumsStart : PerfSums R :=
  ⟨{ t with totalPerformance := RealT.ofRat 0 }, RealT.ofRat 0, RealT.ofRat 0, 0, fun _ => 0⟩

/-- What `calc_perf` makes of the sums after the loop. -/
def ofSums (sums : PerfSums R) : TidPerfTable R :=
  { sums.t with
    meanPerf := normalised (sums.tempMean / real sums.validPerf)
    meanCpuUse := normalised (sums.tempCpu / real sums.validPerf)
    meanPerfPid := fun pid =>
      if sums.validPerfPid pid = 0 then sums.t.meanPerfPid pid
      else normalised (sums.t.meanPerfPid pid / real (sums.validPerfPid pid))
    meanCpuUsePid := fun pid =>
      if sums.validPerfPid pid = 0 then sums.t.meanCpuUsePid pid
      else normalised (sums.t.meanCpuUsePid pid / real (sums.validPerfPid pid)) }

/-- `calc_perf`, with the threads in the iteration order of the table. -/
def calcPerf : TidPerfTable R :=
  ofSums (run (calcPerfStep settings T s) t.sumsStart order)

/-- `update`. -/
def update : TidPerfTable R :=
  (t.checkRunning s).calcPerf settings T s order

/-- An order in which the map may be visited: every thread with a row once. -/
def IterationOrder : Prop :=
  order.Nodup ∧ ∀ tid, tid ∈ order ↔ (t.table tid).isSome = true

/-- The table as the planners see it. -/
def toPerfTable : PerfTable R where
  table := order.filterMap fun tid => (t.table tid).map fun row => (tid, row.toPerfRow)
  meanPerfPid := t.meanPerfPid
  meanCpuUsePid := t.meanCpuUsePid
  avLatencies := t.avLatencies

/-! ### The loop -/

/-- The row of a thread as the loop of `calc_perf` leaves it. -/
def updatedRow (row : TidRow R) : TidRow R :=
  if row.running then row.calcPerf settings T else row

/-- The table with its rows as the loop leaves them. -/
def computed : TidPerfTable R :=
  { t with table := fun tid => (t.table tid).map (updatedRow settings T) }

/-- The performance of a running thread at its pinned node, if it is valid. -/
def validPerf (tid : Pid) : Option R :=
  match t.table tid with
  | none => none
  | some row =>
    let perf := row.performance.perfNode (s.proc tid).pinnedNumaNode
    if row.running && !decide (perf < RealT.ofRat 0) then some perf else none

/-- The valid performances of the running threads of a process, each with the CPU use. -/
def processPerfs (pid : Pid) : List (R × R) :=
  order.filterMap fun tid =>
    if s.pidFromTid tid = pid then (t.validPerf s tid).map fun perf => (perf, (s.proc tid).cpuUse)
    else none

/-- The row of a thread has been computed if the thread is running. -/
def setUpdated (sums : PerfSums R) (tid : Pid) : PerfSums R :=
  let table := Function.update sums.t.table tid ((sums.t.table tid).map (updatedRow settings T))
  { sums with t := { sums.t with table := table } }

variable {settings T s order t} {sums : PerfSums R} {tid pid : Pid}

theorem computed_table :
    (t.computed settings T).table tid = (t.table tid).map (updatedRow settings T) :=
  rfl

theorem validPerf_of_none (h : t.table tid = none) : t.validPerf s tid = none := by
  rw [validPerf, h]

theorem validPerf_of_some {row : TidRow R} (h : t.table tid = some row) :
    t.validPerf s tid =
      if row.running &&
        !decide (row.performance.perfNode (s.proc tid).pinnedNumaNode < RealT.ofRat 0)
      then some (row.performance.perfNode (s.proc tid).pinnedNumaNode) else none := by
  rw [validPerf, h]

/-- An update computes the rows of the threads that are running, and no others. -/
theorem updatedRow_checkRunning (row : TidRow R) (running : Bool) :
    updatedRow settings T (row.checkRunning running) =
      if row.running || running then ⟨row.performance.calcPerf settings T, true⟩ else row := by
  cases hrow : row.running <;> cases running <;>
    simp [TidRow.checkRunning, updatedRow, TidRow.calcPerf, hrow]

theorem setUpdated_of_running {row : TidRow R} (hrow : sums.t.table tid = some row)
    (hrunning : row.running = true) :
    setUpdated settings T sums tid =
      { sums with t := sums.t.setRow tid (row.calcPerf settings T) } := by
  rw [setUpdated, hrow, Option.map_some, updatedRow, if_pos hrunning]
  rfl

theorem setUpdated_of_not_running
    (h : ∀ row, sums.t.table tid = some row → row.running = false) :
    setUpdated settings T sums tid = sums := by
  have hsame : (sums.t.table tid).map (updatedRow settings T) = sums.t.table tid := by
    rcases hrow : sums.t.table tid with _ | row
    · rfl
    · simp [updatedRow, h row hrow]
  rw [setUpdated, hsame, Function.update_eq_self]

/-- **The loop** computes the row of a thread, -/
theorem calcPerfStep_of_none (h : (sums.t.computed settings T).validPerf s tid = none) :
    calcPerfStep settings T s sums tid = setUpdated settings T sums tid := by
  unfold validPerf computed at h
  unfold calcPerfStep
  rcases hrow : sums.t.table tid with _ | row
  · exact (setUpdated_of_not_running (by simp [hrow])).symm
  · cases hrunning : row.running with
    | false =>
      simp only [hrunning, Bool.false_eq_true, if_false]
      exact (setUpdated_of_not_running (by simp [hrow, hrunning])).symm
    | true =>
      have hinvalid : (row.calcPerf settings T).performance.perfNode
          (s.proc tid).pinnedNumaNode < RealT.ofRat 0 := by
        have hrunning' : (row.calcPerf settings T).running = true := hrunning
        simpa [hrow, updatedRow, hrunning, hrunning'] using h
      simp only [hrunning, if_true, if_pos hinvalid]
      exact (setUpdated_of_running hrow hrunning).symm

/-- and adds its performance, if that is valid. -/
theorem calcPerfStep_of_some {perf : R}
    (h : (sums.t.computed settings T).validPerf s tid = some perf) :
    calcPerfStep settings T s sums tid =
      addPerf (setUpdated settings T sums tid) (s.pidFromTid tid) perf (s.proc tid).cpuUse := by
  unfold validPerf computed at h
  unfold calcPerfStep
  rcases hrow : sums.t.table tid with _ | row
  · simp [hrow] at h
  · cases hrunning : row.running with
    | false => simp [hrow, updatedRow, hrunning] at h
    | true =>
      have hrunning' : (row.calcPerf settings T).running = true := hrunning
      obtain ⟨hvalid, rfl⟩ : ¬ (row.calcPerf settings T).performance.perfNode
            (s.proc tid).pinnedNumaNode < RealT.ofRat 0 ∧
          (row.calcPerf settings T).performance.perfNode (s.proc tid).pinnedNumaNode = perf := by
        simpa [hrow, updatedRow, hrunning, hrunning'] using h
      simp only [hrunning, if_true, if_neg hvalid]
      rw [setUpdated_of_running hrow hrunning]

theorem calcPerfStep_table :
    (calcPerfStep settings T s sums tid).t.table =
      Function.update sums.t.table tid ((sums.t.table tid).map (updatedRow settings T)) := by
  rcases h : (sums.t.computed settings T).validPerf s tid with _ | perf
  · rw [calcPerfStep_of_none h, setUpdated]
  · rw [calcPerfStep_of_some h, addPerf, setUpdated]

/-- The loop computes the rows of the threads it visits. -/
theorem run_calcPerfStep_table (horder : order.Nodup) :
    (run (calcPerfStep settings T s) sums order).t.table = fun tid =>
      if tid ∈ order then (sums.t.table tid).map (updatedRow settings T) else sums.t.table tid := by
  induction order generalizing sums with
  | nil => simp
  | cons tid order ih =>
    obtain ⟨htid, horder⟩ := List.nodup_cons.mp horder
    rw [run_cons, ih horder, calcPerfStep_table]
    funext tid'
    by_cases heq : tid' = tid
    · subst heq
      simp [htid]
    · simp [heq]

/-- `sums'` has the entries for a process of `sums`, and `perfs` added to them. -/
structure Adds (pid : Pid) (perfs : List (R × R)) (sums sums' : PerfSums R) : Prop where
  meanPerfPid : sums'.t.meanPerfPid pid =
    perfs.foldl (fun mean e => mean + e.1) (sums.t.meanPerfPid pid)
  meanCpuUsePid : sums'.t.meanCpuUsePid pid =
    perfs.foldl (fun mean e => mean + e.2) (sums.t.meanCpuUsePid pid)
  validPerfPid : sums'.validPerfPid pid = sums.validPerfPid pid + perfs.length

theorem adds_calcPerfStep :
    Adds pid ((sums.t.computed settings T).processPerfs s [tid] pid) sums
      (calcPerfStep settings T s sums tid) := by
  rcases h : (sums.t.computed settings T).validPerf s tid with _ | perf
  · rw [calcPerfStep_of_none h]
    refine ⟨?_, ?_, ?_⟩ <;> simp [processPerfs, h, setUpdated]
  · rw [calcPerfStep_of_some h]
    by_cases hpid : s.pidFromTid tid = pid
    · subst hpid
      refine ⟨?_, ?_, ?_⟩ <;> simp [processPerfs, h, addPerf, setUpdated]
    · refine ⟨?_, ?_, ?_⟩ <;>
        simp [processPerfs, hpid, addPerf, setUpdated, Function.update_of_ne (Ne.symm hpid)]

theorem Adds.trans {perfs perfs' : List (R × R)} {sums sums' sums'' : PerfSums R}
    (h : Adds pid perfs sums sums') (h' : Adds pid perfs' sums' sums'') :
    Adds pid (perfs ++ perfs') sums sums'' where
  meanPerfPid := by rw [h'.meanPerfPid, h.meanPerfPid, List.foldl_append]
  meanCpuUsePid := by rw [h'.meanCpuUsePid, h.meanCpuUsePid, List.foldl_append]
  validPerfPid := by rw [h'.validPerfPid, h.validPerfPid, List.length_append, add_assoc]

theorem processPerfs_congr {t' : TidPerfTable R} (h : ∀ tid ∈ order, t.table tid = t'.table tid) :
    t.processPerfs s order pid = t'.processPerfs s order pid := by
  refine List.filterMap_congr fun tid htid => ?_
  rw [validPerf, validPerf, h tid htid]

/-- The loop adds the performances of the threads it visits. -/
theorem adds_run_calcPerfStep (horder : order.Nodup) :
    Adds pid ((sums.t.computed settings T).processPerfs s order pid) sums
      (run (calcPerfStep settings T s) sums order) := by
  induction order generalizing sums with
  | nil => exact ⟨rfl, rfl, rfl⟩
  | cons tid order ih =>
    obtain ⟨htid, horder⟩ := List.nodup_cons.mp horder
    -- the row of the first thread has changed, but not those of the others
    have hrest : ((calcPerfStep settings T s sums tid).t.computed settings T).processPerfs s
          order pid = (sums.t.computed settings T).processPerfs s order pid := by
      refine processPerfs_congr fun tid' htid' => ?_
      have hne : tid' ≠ tid := fun heq => htid (heq ▸ htid')
      rw [computed_table, computed_table, calcPerfStep_table, Function.update_of_ne hne]
    have hfirst : Adds pid ((sums.t.computed settings T).processPerfs s [tid] pid) sums
        (calcPerfStep settings T s sums tid) := adds_calcPerfStep
    have hall := hfirst.trans (hrest ▸ ih horder)
    rwa [processPerfs, processPerfs, ← List.filterMap_append] at hall

/-! ### One update -/

theorem update_table (horder : t.IterationOrder order) :
    (t.update settings T s order).table = fun tid => (t.table tid).map fun row =>
      updatedRow settings T (row.checkRunning (s.isRunning tid)) := by
  rw [update, calcPerf, ofSums, run_calcPerfStep_table horder.1]
  funext tid
  by_cases hmem : tid ∈ order
  · simp [hmem, checkRunning, sumsStart]
    rfl
  · have hnone : t.table tid = none := by
      simpa [horder.2] using hmem
    simp [hmem, checkRunning, sumsStart, hnone]

/-- An update leaves the latencies as they are. -/
theorem update_latencies :
    (t.update settings T s order).avLatencies = t.avLatencies ∧
      (t.update settings T s order).memAccesses = t.memAccesses := by
  refine run_invariant (I := fun sums : PerfSums R => sums.t.avLatencies = t.avLatencies ∧
    sums.t.memAccesses = t.memAccesses) ⟨rfl, rfl⟩ fun sums tid hsums => ?_
  rw [← hsums.1, ← hsums.2]
  rcases h : (sums.t.computed settings T).validPerf s tid with _ | perf
  · rw [calcPerfStep_of_none h, setUpdated]
    exact ⟨rfl, rfl⟩
  · rw [calcPerfStep_of_some h, addPerf, setUpdated]
    exact ⟨rfl, rfl⟩

theorem update_avLatencies : (t.update settings T s order).avLatencies = t.avLatencies :=
  update_latencies.1

/-- The mean after an update, from the one before it and the values of the iteration. -/
def nextMean (values : List R) (mean : R) : R :=
  if values.length = 0 then mean else normalised (values.foldl (· + ·) mean / real values.length)

theorem nextMean_map {ι : Type*} (value : ι → R) (items : List ι) (mean : R) :
    (if items.length = 0 then items.foldl (fun sum i => sum + value i) mean
      else normalised (items.foldl (fun sum i => sum + value i) mean / real items.length)) =
        nextMean (items.map value) mean := by
  rw [nextMean, List.length_map, List.foldl_map]
  cases items with
  | nil => rfl
  | cons i items => rfl

theorem processPerfs_update (horder : t.IterationOrder order) :
    (t.update settings T s order).processPerfs s order pid =
      ((t.checkRunning s).computed settings T).processPerfs s order pid := by
  refine processPerfs_congr fun tid _ => ?_
  rw [update_table horder, computed_table, checkRunning, Option.map_map]
  rfl

/-- The sums of the loop over all threads of a table. -/
theorem adds_update (settings : Settings R) (T : Topology) (s : System R) (pid : Pid)
    (horder : t.IterationOrder order) :
    Adds pid ((t.update settings T s order).processPerfs s order pid) (t.checkRunning s).sumsStart
      (run (calcPerfStep settings T s) (t.checkRunning s).sumsStart order) := by
  have hstart : (t.update settings T s order).processPerfs s order pid =
      ((t.checkRunning s).sumsStart.t.computed settings T).processPerfs s order pid :=
    (processPerfs_update horder).trans (processPerfs_congr fun _ _ => rfl)
  rw [hstart]
  exact adds_run_calcPerfStep horder.1

/-- The values of a process are counted from zero. -/
theorem validPerfPid_update (settings : Settings R) (T : Topology) (s : System R) (pid : Pid)
    (horder : t.IterationOrder order) :
    (run (calcPerfStep settings T s) (t.checkRunning s).sumsStart order).validPerfPid pid =
      ((t.update settings T s order).processPerfs s order pid).length :=
  (adds_update settings T s pid horder).validPerfPid.trans (Nat.zero_add _)

/-- **Means.** -/
theorem update_meanPerfPid (horder : t.IterationOrder order) :
    (t.update settings T s order).meanPerfPid pid =
      nextMean (((t.update settings T s order).processPerfs s order pid).map Prod.fst)
        (t.meanPerfPid pid) := by
  have hcount := validPerfPid_update settings T s pid horder
  have hsum := (adds_update settings T s pid horder).meanPerfPid
  rw [← nextMean_map, ← hcount]
  simp only [update, calcPerf, ofSums, sumsStart, checkRunning] at hsum ⊢
  rw [hsum]

/-- **Means** of the CPU use. -/
theorem update_meanCpuUsePid (horder : t.IterationOrder order) :
    (t.update settings T s order).meanCpuUsePid pid =
      nextMean (((t.update settings T s order).processPerfs s order pid).map Prod.snd)
        (t.meanCpuUsePid pid) := by
  have hcount := validPerfPid_update settings T s pid horder
  have hsum := (adds_update settings T s pid horder).meanCpuUsePid
  rw [← nextMean_map, ← hcount]
  simp only [update, calcPerf, ofSums, sumsStart, checkRunning] at hsum ⊢
  rw [hsum]

end TidPerfTable

end Thanos
