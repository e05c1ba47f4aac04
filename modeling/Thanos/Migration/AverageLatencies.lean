import Thanos.Library.RunningMean
import Thanos.Migration.TidPerfTable

/-!
# Average latencies

A row of the table of memory pages, the two performance tables and the roofline model of a thread
keep average latencies as integers, of all samples and of those of a node or of a pair of nodes.
Each of them is updated by itself and its counter alone.

* **Running means** (`LatencyAverage.staysClose_iff`): as long as latencies are not negative, an
  average is a running mean that is rounded down with every sample.
* **Drift** (`latenciesStayClose_iff`): what is lost in the divisions adds up, so the averages stay
  within less than one of the means of the latencies exactly when the remainders of the sums of
  latencies by the numbers of samples never decrease.
-/

namespace Thanos

/-- An average latency that some data keep while operations are performed on them. -/
structure LatencyAverage (σ : Type) (ι : Type) where
  step : σ → ι → σ
  /-- The average with its counter. -/
  mean : σ → RunningMean
  /-- The latency of an operation, if it counts for the average. -/
  latency : ι → Option ℤ
  /-- The average takes in the latencies that count for it, and changes with nothing else. -/
  mean_step : ∀ s op, mean (step s op) = (latency op).elim (mean s) fun latency =>
    ⟨runningAverage (mean s).average (mean s).count latency 1, (mean s).count + 1⟩

namespace LatencyAverage

variable {σ ι : Type} (a : LatencyAverage σ ι) (s : σ) (ops : List ι)

/-- Whenever an operation has been performed, the average differs from the mean of the latencies
by less than one. -/
def StaysClose : Prop :=
  ∀ pre, pre <+: ops → Close (pre.filterMap a.latency) (a.mean (run a.step s pre)).average

/-- The latencies that count for the average. -/
def latencies : List ℤ :=
  ops.filterMap a.latency

/-- No latency that counts for the average is negative. -/
def Nonneg : Prop :=
  ∀ op ∈ ops, ∀ latency, a.latency op = some latency → 0 ≤ latency

variable {a s ops}

/-- Without negative numbers the quotient is rounded down. -/
theorem runningAverage_eq_take {m : RunningMean} {latency : ℤ} (hproduct : 0 ≤ m.count * m.average)
    (hlatency : 0 ≤ latency) :
    ⟨runningAverage m.average m.count latency 1, m.count + 1⟩ = m.take latency := by
  rw [runningAverage, mul_one, Int.tdiv_eq_ediv_of_nonneg (by omega), RunningMean.take]

/-- **Running means.** -/
theorem staysClose_iff (hcount : (a.mean s).count = 0) (hops : a.Nonneg ops) :
    a.StaysClose s ops ↔ RemaindersAscend (a.latencies ops) := by
  let I : σ → Prop := fun t => 0 ≤ (a.mean t).count ∧ 0 ≤ (a.mean t).count * (a.mean t).average
  have hview : ∀ t, ∀ op ∈ ops, I t →
      a.mean (a.step t op) = (a.latency op).elim (a.mean t) (RunningMean.take (a.mean t)) := by
    intro t op hop ht
    rw [a.mean_step]
    rcases hlatency : a.latency op with _ | latency
    · rfl
    · exact runningAverage_eq_take ht.2 (hops op hop latency hlatency)
  have hstep : ∀ t, ∀ op ∈ ops, I t → I (a.step t op) := by
    intro t op hop ht
    change 0 ≤ (a.mean (a.step t op)).count ∧
      0 ≤ (a.mean (a.step t op)).count * (a.mean (a.step t op)).average
    rw [hview t op hop ht]
    rcases hlatency : a.latency op with _ | latency
    · exact ht
    · have hpos : 0 < (a.mean t).count + 1 := by
        have := ht.1
        omega
      have hsum : 0 ≤ (a.mean t).count * (a.mean t).average + latency :=
        add_nonneg ht.2 (hops op hop latency hlatency)
      exact ⟨hpos.le, mul_nonneg hpos.le (Int.ediv_nonneg hsum hpos.le)⟩
  have hs : I s := by
    change 0 ≤ (a.mean s).count ∧ 0 ≤ (a.mean s).count * (a.mean s).average
    rw [hcount]
    simp
  exact RunningMean.staysClose_view_iff a.mean a.latency hs hstep hview hcount

end LatencyAverage

variable {R : Type} [RealT R]

/-- The latency of a sample of a page, if the page was on some node. -/
def MemorySample.latencyAt (node : Node) (sample : MemorySample) : Option ℤ :=
  if sample.pageNode = node then some sample.latency else none

/-- The latency of a memory sample. -/
def ThreadSample.memLatency : ThreadSample → Option ℤ
  | .mem sample => some sample.latency
  | .reqs _ => none
  | .inst _ => none

/-- The latency of a memory sample of a page that was on some node. -/
def ThreadSample.memLatencyAt (node : Node) : ThreadSample → Option ℤ
  | .mem sample => sample.latencyAt node
  | .reqs _ => none
  | .inst _ => none

/-- The latency of a memory sample from a node of a page that was on some node. -/
def ThreadSample.memLatencyBetween (T : Topology) (src dst : Node) : ThreadSample → Option ℤ
  | .mem sample => if T.cpuNodeMap sample.cpu = src then sample.latencyAt dst else none
  | .reqs _ => none
  | .inst _ => none

/-! ### The averages -/

/-- `av_latency_` of a row of the table of memory pages. -/
def PageRow.average (R : Type) [RealT R] (T : Topology) :
    LatencyAverage (PageRow R) (MemorySample × R) where
  step row e := row.addData T e.1 e.2
  mean row := ⟨row.avLatency, row.avLatencyCtr⟩
  latency e := some e.1.latency
  mean_step _ _ := rfl

/-- `av_latencies_[node]` of a row of the table of memory pages. -/
def PageRow.averageAt (R : Type) [RealT R] (T : Topology) (node : Node) :
    LatencyAverage (PageRow R) (MemorySample × R) where
  step row e := row.addData T e.1 e.2
  mean row := ⟨row.avLatencies node, row.avLatenciesCtr node⟩
  latency e := e.1.latencyAt node
  mean_step row e := by
    unfold MemorySample.latencyAt
    split_ifs with h
    · subst h
      simp [PageRow.addData]
    · simp [PageRow.addData, Function.update_of_ne (Ne.symm h)]

/-- `av_latency_` of the table of memory pages. -/
def MempagesTable.average (R : Type) [RealT R] (T : Topology) :
    LatencyAverage (MempagesTable R) (MemorySample × R) where
  step t e := t.addData T e.1 e.2
  mean t := ⟨t.avLatency, t.accesses⟩
  latency e := some e.1.latency
  mean_step t e := by simp [MempagesTable.addData, e.1.reqs_eq_one]

/-- `node_latencies_[node]` of the table of memory pages. -/
def MempagesTable.averageAt (R : Type) [RealT R] (T : Topology) (node : Node) :
    LatencyAverage (MempagesTable R) (MemorySample × R) where
  step t e := t.addData T e.1 e.2
  mean t := ⟨t.nodeLatencies node, t.nodeAccesses node⟩
  latency e := e.1.latencyAt node
  mean_step t e := by
    unfold MemorySample.latencyAt
    split_ifs with h
    · subst h
      simp [MempagesTable.addData, e.1.reqs_eq_one]
    · simp [MempagesTable.addData, Function.update_of_ne (Ne.symm h)]

/-- `mean_lat_[node]` of the roofline model of a thread. -/
def LiveRm3d.averageAt (R : Type) [RealT R] (T : Topology) (node : Node) :
    LatencyAverage (LiveRm3d R) ThreadSample where
  step r sample := r.addData T sample
  mean r := ⟨r.meanLat node, r.nodeReqs node⟩
  latency := ThreadSample.memLatencyAt node
  mean_step r sample := by
    cases sample with
    | mem data =>
      by_cases h : data.pageNode = node
      · subst h
        simp [LiveRm3d.addData, LiveRm3d.addMem, ThreadSample.memLatencyAt,
          MemorySample.latencyAt, data.reqs_eq_one]
      · simp [LiveRm3d.addData, LiveRm3d.addMem, ThreadSample.memLatencyAt,
          MemorySample.latencyAt, h, Function.update_of_ne (Ne.symm h)]
    | reqs _ => rfl
    | inst _ => rfl

/-- `av_latency_` of the table of thread performance. -/
def TidPerfTable.average (settings : Settings R) (T : Topology) :
    LatencyAverage (TidPerfTable R) ThreadSample where
  step u sample := u.addData settings T sample
  mean u := ⟨u.avLatency, u.accesses⟩
  latency := ThreadSample.memLatency
  mean_step u sample := by
    cases sample with
    | mem data =>
      simp [TidPerfTable.addData, TidPerfTable.setRow, ThreadSample.memLatency, data.reqs_eq_one]
    | reqs _ => rfl
    | inst _ => rfl

/-- `av_latencies_[src][dst]` of the table of thread performance. -/
def TidPerfTable.averageBetween (settings : Settings R) (T : Topology) (src dst : Node) :
    LatencyAverage (TidPerfTable R) ThreadSample where
  step u sample := u.addData settings T sample
  mean u := ⟨u.avLatencies src dst, u.memAccesses src dst⟩
  latency := ThreadSample.memLatencyBetween T src dst
  mean_step u sample := by
    cases sample with
    | mem data =>
      unfold ThreadSample.memLatencyBetween MemorySample.latencyAt
      by_cases hsrc : T.cpuNodeMap data.cpu = src
      · by_cases hdst : data.pageNode = dst
        · subst hsrc hdst
          simp [TidPerfTable.addData, TidPerfTable.setRow, data.reqs_eq_one]
        · simp [TidPerfTable.addData, TidPerfTable.setRow, ← hsrc, hdst,
            Function.update_of_ne (Ne.symm hdst)]
      · simp [TidPerfTable.addData, TidPerfTable.setRow, hsrc,
          Function.update_of_ne (Ne.symm hsrc)]
    | reqs _ => rfl
    | inst _ => rfl

/-! ### Drift -/

variable {settings : Settings R} {T : Topology} {row : PageRow R} {t : MempagesTable R}
  {r : LiveRm3d R} {u : TidPerfTable R} {node src dst : Node}
  {history : List (MemorySample × R)} {samples : List ThreadSample}

/-- No memory sample has a negative latency. -/
def NonnegLatencies (samples : List ThreadSample) : Prop :=
  ∀ sample ∈ samples, ∀ latency, sample.memLatency = some latency → 0 ≤ latency

theorem memLatency_of_memLatencyAt {sample : ThreadSample} {latency : ℤ}
    (h : sample.memLatencyAt node = some latency) : sample.memLatency = some latency := by
  cases sample with
  | mem data =>
    rw [ThreadSample.memLatencyAt, MemorySample.latencyAt] at h
    split_ifs at h
    exact h
  | reqs _ => cases h
  | inst _ => cases h

theorem memLatency_of_memLatencyBetween {sample : ThreadSample} {latency : ℤ}
    (h : sample.memLatencyBetween T src dst = some latency) :
    sample.memLatency = some latency := by
  cases sample with
  | mem data =>
    rw [ThreadSample.memLatencyBetween, MemorySample.latencyAt] at h
    split_ifs at h
    exact h
  | reqs _ => cases h
  | inst _ => cases h

omit [RealT R] in
theorem nonneg_of_latencyAt (hhistory : ∀ e ∈ history, 0 ≤ e.1.latency) :
    ∀ e ∈ history, ∀ latency, e.1.latencyAt node = some latency → 0 ≤ latency := by
  intro e he latency hlatency
  rw [MemorySample.latencyAt] at hlatency
  split_ifs at hlatency
  rw [← Option.some.inj hlatency]
  exact hhistory e he

theorem PageRow.Fresh.counters (h : PageRow.Fresh settings row) :
    row.avLatencyCtr = 0 ∧ ∀ node, row.avLatenciesCtr node = 0 := by
  obtain ⟨lastPid, lastNode, rfl⟩ | ⟨row', rfl⟩ := h
  · exact ⟨rfl, fun _ => rfl⟩
  · exact ⟨rfl, fun _ => rfl⟩

/-- **Drift.** -/
theorem latenciesStayClose_iff (hhistory : ∀ e ∈ history, 0 ≤ e.1.latency)
    (hsamples : NonnegLatencies samples) (hrow : PageRow.Fresh settings row)
    (ht : t.accesses = 0) (htNode : t.nodeAccesses node = 0) (hr : r.nodeReqs node = 0)
    (hu : u.accesses = 0) (huPath : u.memAccesses src dst = 0) :
    (((PageRow.average R T).StaysClose row history ↔
        RemaindersAscend ((PageRow.average R T).latencies history)) ∧
      ((PageRow.averageAt R T node).StaysClose row history ↔
        RemaindersAscend ((PageRow.averageAt R T node).latencies history)) ∧
      ((MempagesTable.average R T).StaysClose t history ↔
        RemaindersAscend ((MempagesTable.average R T).latencies history)) ∧
      ((MempagesTable.averageAt R T node).StaysClose t history ↔
        RemaindersAscend ((MempagesTable.averageAt R T node).latencies history))) ∧
    (((LiveRm3d.averageAt R T node).StaysClose r samples ↔
        RemaindersAscend ((LiveRm3d.averageAt R T node).latencies samples)) ∧
      ((TidPerfTable.average settings T).StaysClose u samples ↔
        RemaindersAscend ((TidPerfTable.average settings T).latencies samples)) ∧
      ((TidPerfTable.averageBetween settings T src dst).StaysClose u samples ↔
        RemaindersAscend
          ((TidPerfTable.averageBetween settings T src dst).latencies samples))) := by
  have hall : ∀ e ∈ history, ∀ latency, some e.1.latency = some latency → 0 ≤ latency := by
    intro e he latency hlatency
    rw [← Option.some.inj hlatency]
    exact hhistory e he
  have hnode : ∀ e ∈ history, ∀ latency, e.1.latencyAt node = some latency → 0 ≤ latency :=
    nonneg_of_latencyAt hhistory
  have hthread : (LiveRm3d.averageAt R T node).Nonneg samples :=
    fun sample hsample latency h => hsamples sample hsample latency (memLatency_of_memLatencyAt h)
  have hpath : (TidPerfTable.averageBetween settings T src dst).Nonneg samples :=
    fun sample hsample latency h =>
      hsamples sample hsample latency (memLatency_of_memLatencyBetween h)
  exact ⟨⟨LatencyAverage.staysClose_iff hrow.counters.1 hall,
      LatencyAverage.staysClose_iff (hrow.counters.2 node) hnode,
      LatencyAverage.staysClose_iff ht hall, LatencyAverage.staysClose_iff htNode hnode⟩,
    LatencyAverage.staysClose_iff hr hthread, LatencyAverage.staysClose_iff hu hsamples,
    LatencyAverage.staysClose_iff huPath hpath⟩

/-- Samples of one page on node 1 from CPU 0, with the given latencies. -/
def samplesOf (latencies : List ℤ) : List MemorySample :=
  latencies.map fun latency => .single 0 1 4096 latency 1

/-- With equal latencies nothing is lost. -/
theorem latenciesStayClose_iff_equal :
    (PageRow.average ℚ (.regular 2 1 Nat.two_pos Nat.one_pos)).StaysClose (.new 1 1)
        ((samplesOf [200, 200, 200]).map fun sample => (sample, 1)) ∧
      (TidPerfTable.average (.default 1 64 : Settings ℚ)
          (.regular 2 1 Nat.two_pos Nat.one_pos)).StaysClose (.new (.default 1 64))
        ((samplesOf [200, 200, 200]).map .mem) := by
  have hhistory : ∀ e ∈ (samplesOf [200, 200, 200]).map fun sample => (sample, (1 : ℚ)),
      0 ≤ e.1.latency := by decide
  have hsamples : NonnegLatencies ((samplesOf [200, 200, 200]).map .mem) := by
    intro sample hsample latency hlatency
    simp only [samplesOf, List.map_cons, List.map_nil, List.mem_cons, List.not_mem_nil, or_false,
      or_self] at hsample
    subst hsample
    rw [← Option.some.inj hlatency]
    decide
  have hiff := latenciesStayClose_iff (T := .regular 2 1 Nat.two_pos Nat.one_pos) hhistory hsamples
    (.inl ⟨1, 1, rfl⟩ : PageRow.Fresh (.default 1 64) (.new 1 1))
    (rfl : (MempagesTable.new (.default 1 64 : Settings ℚ)).accesses = 0)
    (rfl : (MempagesTable.new (.default 1 64 : Settings ℚ)).nodeAccesses 1 = 0)
    (rfl : (LiveRm3d.new (.default 1 64 : Settings ℚ)).nodeReqs 1 = 0)
    (rfl : (TidPerfTable.new (.default 1 64 : Settings ℚ)).accesses = 0)
    (rfl : (TidPerfTable.new (.default 1 64 : Settings ℚ)).memAccesses 0 1 = 0)
  exact ⟨hiff.1.1.mpr (by decide), hiff.2.2.1.mpr (by decide)⟩

/-- After the latencies 1, 2, 3 and 3 the average of the page is 1. -/
theorem not_latenciesStayClose :
    ¬ ∀ (settings : Settings ℚ) (T : Topology) (row : PageRow ℚ)
      (history : List (MemorySample × ℚ)), PageRow.Fresh settings row →
      (∀ e ∈ history, 0 ≤ e.1.latency) →
      Close (history.map fun e => e.1.latency)
        (run (fun row e => row.addData T e.1 e.2) row history).avLatency := by
  intro h
  have hclose := h (.default 1 64) (.regular 2 1 Nat.two_pos Nat.one_pos) (.new 1 1)
    ((samplesOf [1, 2, 3, 3]).map fun sample => (sample, 1)) (.inl ⟨1, 1, rfl⟩) (by decide)
    (by decide)
  exact absurd hclose (by decide +kernel)

end Thanos
