import Thanos.Migration.Tickets
import Thanos.SystemInfo.Placement

/-!
# The performance table

`Rm3d` is the row of one thread in the roofline model: counters and performance per memory
node. `PerfTable` is the table of all threads, in the iteration order of the hash map, with the
means over the threads of a process. A look-up at a thread without a row gives a fresh row, as
`operator[]` of the map does.
-/

namespace Thanos

variable {R : Type} [RealT R]

/-- An integer converted to a real number. -/
def real (n : ℤ) : R :=
  RealT.ofRat n

/-- `performance::PERFORMANCE_INVALID_VALUE`. -/
def performanceInvalidValue : R :=
  RealT.ofRat (-1)

/-- `performance::rm3d`, the fields that the planners read. Vectors are indexed by the nodes up
to `max_node`. -/
structure Rm3d (R : Type) where
  /-- Number of floating point operations executed in each node. -/
  flops : Node → ℤ
  /-- Number of instructions executed in each node. -/
  inst : Node → ℤ
  /-- Total number of memory requests in each node. -/
  totalReqs : Node → ℤ
  /-- Time consumed by the instructions and requests. -/
  times : Node → ℤ
  /-- Number of memory requests to each memory node. -/
  nodeReqs : Node → ℤ
  /-- Mean latency of memory accesses to each node. -/
  meanLat : Node → ℤ
  /-- Performance per memory node. -/
  perfs : Node → R
  /-- `decay(node)` at the moment of the decision. -/
  decay : Node → R

namespace Rm3d

/-- The constructor. -/
def new (settings : Settings R) : Rm3d R where
  flops _ := 0
  inst _ := 0
  totalReqs _ := 0
  times _ := 0
  nodeReqs _ := 0
  meanLat _ := settings.minimumLatency
  perfs _ := performanceInvalidValue
  decay _ := RealT.ofRat 1

variable (settings : Settings R) (T : Topology) (r : Rm3d R) (node : Node)

/-- `ops_per_second`; times are measured in nanoseconds. -/
def opsPerSecond : R :=
  if r.times node = 0 then RealT.ofRat 0
  else real (r.inst node + r.flops node) / (real (r.times node) / RealT.ofRat 1000000000)

/-- `ops_per_byte`. -/
def opsPerByte : R :=
  if r.totalReqs node = 0 then RealT.ofRat 0
  else r.opsPerSecond node / real (r.totalReqs node * settings.cacheLineSize)

/-- `av_latency`. -/
def avLatency : ℤ :=
  if r.totalReqs node = 0 ∨ r.meanLat node ≤ 0 then settings.minimumLatency else r.meanLat node

/-- `calc_perf(ops_per_s, ops_per_b, mean_lat)`, with all exponents one. -/
def calcPerf (opsPerS opsPerB : R) (meanLat : ℤ) : R :=
  let result := opsPerS * (opsPerB / real meanLat)
  if RealT.isNormal result then result else performanceInvalidValue

/-- `perf_node`, which is also `operator[]`. -/
def perfNode : R :=
  let perf := r.perfs node
  if perf < RealT.ofRat 0 ∨ RealT.isNormal perf = false then performanceInvalidValue
  else perf * r.decay node

/-- `preferred_node`: the first node with the most requests. -/
def preferredNode : Node :=
  (List.range (T.maxNode + 1)).foldl
    (fun best node => if r.nodeReqs best < r.nodeReqs node then node else best) 0

/-- `scaled_node_reqs()`. -/
def scaledNodeReqs : Node → ℤ :=
  let total (reqs : Node → ℤ) : R :=
    (List.range (T.maxNode + 1)).foldl (fun acc node => acc + real (reqs node)) (RealT.ofRat 0)
  let scale := total r.totalReqs / total r.nodeReqs
  if RealT.isNormal scale = false ∨ scale < RealT.ofRat 0 ∨ (scale == RealT.ofRat 0) = true then
    r.nodeReqs
  else fun node => RealT.trunc (real (r.nodeReqs node) * scale)

end Rm3d

/-- `performance::details::row`. -/
structure PerfRow (R : Type) where
  performance : Rm3d R
  /-- Is the thread running? -/
  running : Bool

/-- `performance::tid_perf_table`, the fields that the planners read. -/
structure PerfTable (R : Type) where
  /-- `table_`, in the iteration order of the map. -/
  table : List (Pid × PerfRow R)
  /-- `mean_perf_pid_`, zero for a process without an entry. -/
  meanPerfPid : Pid → R
  /-- `mean_cpu_use_pid_`, zero for a process without an entry. -/
  meanCpuUsePid : Pid → R
  /-- `av_latencies_[src][dst]`. -/
  avLatencies : Node → Node → ℤ

namespace PerfTable

variable (settings : Settings R) (T : Topology) (perfTable : PerfTable R) (s : System R) (tid : Pid)

/-- The threads of the table in iteration order. -/
def tids : List Pid :=
  perfTable.table.map Prod.fst

/-- `table_[tid]`. -/
def row : PerfRow R :=
  ((perfTable.table.find? fun entry => entry.1 == tid).map Prod.snd).getD
    ⟨Rm3d.new settings, false⟩

/-- `get_rm3d`. -/
def getRm3d : Rm3d R :=
  (perfTable.row settings tid).performance

/-- `is_running`. -/
def isRunning : Bool :=
  (perfTable.row settings tid).running

/-- `performance(tid)`: the performance of the thread at its pinned node. -/
def performance : R :=
  (perfTable.getRm3d settings tid).perfNode (s.proc tid).pinnedNumaNode

/-- `rel_performance`: compared to the threads of the same process. -/
def relPerformance : R :=
  let pid := s.pidFromTid tid
  let perf := perfTable.performance settings s tid
  let relPerf :=
    if perf == performanceInvalidValue then (s.proc tid).cpuUse / perfTable.meanCpuUsePid pid
    else perf / perfTable.meanPerfPid pid
  if RealT.isNormal relPerf then relPerf else performanceInvalidValue

/-- `preferred_node`. -/
def preferredNode : Node :=
  (perfTable.getRm3d settings tid).preferredNode T

end PerfTable

/-- A table without rows. -/
def emptyPerfTable : PerfTable ℚ :=
  ⟨[], fun _ => 0, fun _ => 0, fun _ _ => 1⟩

end Thanos
