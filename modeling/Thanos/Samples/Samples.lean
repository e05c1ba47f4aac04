import Thanos.SystemInfo.MemoryInfo
import Thanos.Utils.Types

/-!
# Samples

`Pebs` is a sample as it is read from a counter, and the other structures are the data cells
into which the samples are turned for the performance tables.
-/

namespace Thanos

/-- `samples::sample_type_t`, with the counters of the default build. -/
inductive SampleType
  | memSample
  | reqSample
  | insSample
  | fpScalarSample
  | fp128bDSample
  | fp128bSSample
  | fp256bDSample
  | fp256bSSample
  deriving DecidableEq

/-- `samples::type_multiplier`. -/
def SampleType.multiplier : SampleType → ℕ
  | memSample => 1
  | reqSample => 1
  | insSample => 1
  | fpScalarSample => 1
  | fp128bDSample => 2
  | fp128bSSample => 4
  | fp256bDSample => 4
  | fp256bSSample => 8

/-- `samples::pebs`. -/
structure Pebs where
  /-- Instruction pointer. -/
  iip : UInt64
  /-- Process ID. -/
  pid : Pid
  /-- Thread ID. -/
  tid : Pid
  /-- Timestamp. -/
  time : UInt64
  /-- Address, if applicable. -/
  sampleAddr : Addr
  /-- CPU where the sample was generated. -/
  cpu : Cpu
  /-- How costly the sampled event was. -/
  weight : UInt64
  /-- Time event active. -/
  timeEnabled : UInt64
  /-- Time event on CPU. -/
  timeRunning : UInt64
  /-- Data source. -/
  dsrc : UInt64
  /-- Value of the sample. -/
  value : UInt64
  sampleType : SampleType
  deriving DecidableEq

namespace Pebs

/-- The constructor. -/
def new (sampleType : SampleType) : Pebs :=
  ⟨0, 0, 0, 0, 0, 0, 0, 0, 0, 0, 0, sampleType⟩

/-- `is_mem_sample`. -/
def isMemSample (sample : Pebs) : Bool :=
  sample.sampleType = .memSample

/-- `multiplier`, set by the constructor from the type. -/
def multiplier (sample : Pebs) : ℕ :=
  sample.sampleType.multiplier

end Pebs

/-- `memory_sample_t`. -/
structure MemorySample where
  cpu : Cpu
  tid : Pid
  /-- Number of memory operations performed from the CPU. -/
  reqs : ℤ
  /-- Address of the beginning of the page. -/
  page : Addr
  /-- Latency of the sampled operation. -/
  latency : ℤ
  /-- Node in which the page was located when the sample was processed. -/
  pageNode : Node
  /-- One sample stands for one memory operation. -/
  reqs_eq_one : reqs = 1

/-- A sample of one memory operation. -/
def MemorySample.single (cpu : Cpu) (tid : Pid) (page : Addr) (latency : ℤ) (pageNode : Node) :
    MemorySample :=
  ⟨cpu, tid, 1, page, latency, pageNode, rfl⟩

/-- `reqs_sample_t`. -/
structure ReqsSample where
  cpu : Cpu
  tid : Pid
  reqs : ℤ

/-- `inst_sample_t`. -/
structure InstSample where
  cpu : Cpu
  tid : Pid
  time : ℤ
  inst : ℤ
  multiplier : ℕ
  /-- The instructions are floating point operations. -/
  flop : Bool

end Thanos
