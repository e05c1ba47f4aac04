import Mathlib.Algebra.Order.BigOperators.Group.List
import Thanos.Migration.Schedule
import Thanos.Migration.TidPerfTable
import Thanos.SystemInfo.PlacementRuns

/-!
# The divisors of the expected performance

A schedule of RM3D expects of a thread, at another node, as many operations more as the latency
gets lower there. The latency is estimated from the memory requests of the row of the thread,
scaled to all its requests and truncated; the estimate is divided by their number, and the
performance by the estimate.

* **Tables** (`Reachable.nonneg`): the counters and latencies of every table that the operations
  of the program can make are not negative.
* **Scaling** (`one_le_scaledNodeReqs_iff`): which requests are left by the truncation.
* **Divisors** (`dividesByPositive_iff`): both divisors are positive exactly when a request is
  left at a node with a positive latency.
-/

namespace Thanos

variable {R : Type} [RealT R]

/-- Requests and latencies are read from unsigned fields. -/
def ThreadSample.Unsigned : ThreadSample → Prop
  | mem sample => 0 ≤ sample.latency
  | reqs sample => 0 ≤ sample.reqs
  | inst _ => True

namespace TidPerfTable

/-! ### Tables -/

section Operations

variable (settings : Settings R) (T : Topology) (s : System R) (t : TidPerfTable R)

/-- `table_[tid]`, which inserts a row if there is none. -/
def lookUp (tid : Pid) : TidPerfTable R :=
  t.setRow tid ((t.table tid).getD (.new settings))

/-- The body of the loop of `add_tids`. -/
def addTid (tid : Pid) : TidPerfTable R :=
  if (t.table tid).isSome then t
  else
    let pid := s.pidFromTid tid
    { t.setRow tid (.new settings) with
      meanPerfPid := Function.update t.meanPerfPid pid (t.meanPerfPid pid + RealT.ofRat 0)
      meanCpuUsePid := Function.update t.meanCpuUsePid pid (t.meanCpuUsePid pid + RealT.ofRat 0) }

/-- `add_tids`. -/
def addTids (tids : OrderedSet Pid) : TidPerfTable R :=
  run (addTid settings s) t tids.toList

/-- `remove_entry`. -/
def removeEntry (tid : Pid) : TidPerfTable R :=
  { t with table := Function.update t.table tid none }

/-- `hard_clear`. -/
def hardClear : TidPerfTable R :=
  { t with
    table := fun _ => none
    meanPerfPid := fun _ => RealT.ofRat 0
    meanCpuUsePid := fun _ => RealT.ofRat 0
    accesses := 0
    avLatency := settings.minimumLatency
    avLatencies := fun src dst =>
      if src ∈ T.nodes then settings.minimumLatency else t.avLatencies src dst
    memAccesses := fun src dst => if src ∈ T.nodes then 0 else t.memAccesses src dst }

end Operations

/-- The tables that the operations make. The minimum latency is positive and may be reduced from
one operation to the next. -/
inductive Reachable (T : Topology) : TidPerfTable R → Prop
  | new {settings : Settings R} (hlat : 0 < settings.minimumLatency) :
      Reachable T (new settings)
  | addData {settings : Settings R} {t : TidPerfTable R} {sample : ThreadSample}
      (ht : Reachable T t) (hlat : 0 < settings.minimumLatency) (hsample : sample.Unsigned) :
      Reachable T (t.addData settings T sample)
  | addTids {settings : Settings R} {s : System R} {t : TidPerfTable R} {tids : OrderedSet Pid}
      (ht : Reachable T t) : Reachable T (t.addTids settings s tids)
  | lookUp {settings : Settings R} {t : TidPerfTable R} {tid : Pid} (ht : Reachable T t) :
      Reachable T (t.lookUp settings tid)
  | update {settings : Settings R} {s : System R} {t : TidPerfTable R} {order : List Pid}
      (ht : Reachable T t) (horder : t.IterationOrder order) :
      Reachable T (t.update settings T s order)
  | clearIt {settings : Settings R} {t : TidPerfTable R} {isPidAlive : Pid → Bool}
      (ht : Reachable T t) (hlat : 0 < settings.minimumLatency) :
      Reachable T (t.clearIt settings T isPidAlive)
  | hardClear {settings : Settings R} {t : TidPerfTable R} (ht : Reachable T t)
      (hlat : 0 < settings.minimumLatency) : Reachable T (t.hardClear settings T)
  | removeEntry {t : TidPerfTable R} {tid : Pid} (ht : Reachable T t) :
      Reachable T (t.removeEntry tid)

/-- The requests counted in a row are not negative. -/
structure NonnegRow (row : TidRow R) : Prop where
  totalReqs : ∀ node, 0 ≤ row.performance.totalReqs node
  nodeReqs : ∀ node, 0 ≤ row.performance.nodeReqs node

/-- The counters and latencies of a table are not negative. -/
structure Nonneg (t : TidPerfTable R) : Prop where
  row : ∀ tid row, t.table tid = some row → NonnegRow row
  avLatencies : ∀ src dst, 0 ≤ t.avLatencies src dst
  memAccesses : ∀ src dst, 0 ≤ t.memAccesses src dst

variable {T : Topology} {settings : Settings R} {t : TidPerfTable R} {row : TidRow R}
  {tid : Pid} {sample : ThreadSample}

theorem NonnegRow.new : NonnegRow (TidRow.new settings) :=
  ⟨fun _ => le_rfl, fun _ => le_rfl⟩

/-- A counter that grows at one index. -/
theorem update_nonneg {f : Node → ℤ} {node : Node} {n : ℤ} (hf : ∀ i, 0 ≤ f i) (hn : 0 ≤ n)
    (i : Node) : 0 ≤ Function.update f node n i := by
  rw [Function.update_apply]
  split_ifs
  · exact hn
  · exact hf i

omit [RealT R] in
theorem NonnegRow.addData (h : NonnegRow row) (hsample : sample.Unsigned) :
    NonnegRow (row.addData T sample) := by
  rcases sample with data | data | data
  · refine ⟨h.totalReqs, update_nonneg h.nodeReqs ?_⟩
    rw [data.reqs_eq_one]
    exact add_nonneg (h.nodeReqs _) zero_le_one
  · exact ⟨update_nonneg h.totalReqs (add_nonneg (h.totalReqs _) hsample), h.nodeReqs⟩
  · exact ⟨h.totalReqs, h.nodeReqs⟩

omit [RealT R] in
theorem NonnegRow.clear (h : NonnegRow row) : NonnegRow (row.clear T) := by
  refine ⟨fun node => ?_, fun node => ?_⟩
  · simp only [TidRow.clear, LiveRm3d.reset]
    split_ifs
    · exact le_rfl
    · exact h.totalReqs node
  · simp only [TidRow.clear, LiveRm3d.reset]
    split_ifs
    · exact le_rfl
    · exact h.nodeReqs node

theorem NonnegRow.updatedRow_checkRunning (h : NonnegRow row) (running : Bool) :
    NonnegRow (updatedRow settings T (row.checkRunning running)) := by
  rw [TidPerfTable.updatedRow_checkRunning]
  split_ifs
  · exact ⟨h.totalReqs, h.nodeReqs⟩
  · exact h

theorem runningAverage_nonneg {average count value reqs : ℤ} (haverage : 0 ≤ average)
    (hcount : 0 ≤ count) (hvalue : 0 ≤ value) (hreqs : 0 ≤ reqs) :
    0 ≤ runningAverage average count value reqs :=
  Int.tdiv_nonneg (add_nonneg (mul_nonneg hcount haverage) (mul_nonneg hvalue hreqs))
    (add_nonneg hcount hreqs)

namespace Nonneg

omit [RealT R] in
/-- A row is overwritten by another one without negative counters. -/
theorem setRow (h : Nonneg t) (hrow : NonnegRow row) : Nonneg (t.setRow tid row) where
  row tid' row' hrow' := by
    simp only [TidPerfTable.setRow, Function.update_apply] at hrow'
    split_ifs at hrow'
    · rwa [← Option.some.inj hrow']
    · exact h.row tid' row' hrow'
  avLatencies := h.avLatencies
  memAccesses := h.memAccesses

/-- The row of a thread, or a new one. -/
theorem getD (h : Nonneg t) (tid : Pid) : NonnegRow ((t.table tid).getD (.new settings)) := by
  cases hrow : t.table tid with
  | none => exact NonnegRow.new
  | some row => exact h.row tid row hrow

theorem addData (h : Nonneg t) (hsample : sample.Unsigned) :
    Nonneg (t.addData settings T sample) := by
  have hset : Nonneg (t.setRow sample.tid
      (((t.table sample.tid).getD (.new settings)).addData T sample)) :=
    h.setRow ((h.getD sample.tid).addData hsample)
  rcases sample with data | data | data
  · -- the latencies of one pair of nodes change
    have hreqs : 0 ≤ data.reqs := by
      rw [data.reqs_eq_one]
      exact zero_le_one
    refine ⟨hset.row, fun src dst => ?_, fun src dst => ?_⟩
    · simp only [TidPerfTable.addData, TidPerfTable.setRow]
      by_cases hsrc : src = T.cpuNodeMap data.cpu
      · subst hsrc
        rw [Function.update_self]
        exact update_nonneg (h.avLatencies _) (runningAverage_nonneg (h.avLatencies _ _)
          (h.memAccesses _ _) hsample hreqs) dst
      · rw [Function.update_of_ne hsrc]
        exact h.avLatencies src dst
    · simp only [TidPerfTable.addData, TidPerfTable.setRow]
      by_cases hsrc : src = T.cpuNodeMap data.cpu
      · subst hsrc
        rw [Function.update_self]
        exact update_nonneg (h.memAccesses _) (add_nonneg (h.memAccesses _ _) hreqs) dst
      · rw [Function.update_of_ne hsrc]
        exact h.memAccesses src dst
  · exact hset
  · exact hset

theorem addTid {s : System R} (h : Nonneg t) : Nonneg (t.addTid settings s tid) := by
  unfold TidPerfTable.addTid
  split_ifs
  · exact h
  · have hset : Nonneg (t.setRow tid (.new settings)) := h.setRow NonnegRow.new
    exact ⟨hset.row, hset.avLatencies, hset.memAccesses⟩

omit [RealT R] in
/-- A table with fresh latencies for the allowed nodes. -/
theorem clear {t' : TidPerfTable R} (h : Nonneg t) (hlat : 0 < settings.minimumLatency)
    (hrow : ∀ tid row, t'.table tid = some row → NonnegRow row)
    (hav : t'.avLatencies = fun src dst =>
      if src ∈ T.nodes then settings.minimumLatency else t.avLatencies src dst)
    (hacc : t'.memAccesses = fun src dst => if src ∈ T.nodes then 0 else t.memAccesses src dst) :
    Nonneg t' where
  row := hrow
  avLatencies src dst := by
    rw [hav]
    dsimp only
    split_ifs
    · exact hlat.le
    · exact h.avLatencies src dst
  memAccesses src dst := by
    rw [hacc]
    dsimp only
    split_ifs
    · exact le_rfl
    · exact h.memAccesses src dst

end Nonneg

/-- **Tables.** -/
theorem Reachable.nonneg (ht : Reachable T t) : Nonneg t := by
  induction ht with
  | new hlat => exact ⟨fun _ _ hrow => (nomatch hrow), fun _ _ => hlat.le, fun _ _ => le_rfl⟩
  | addData _ _ hsample ih => exact ih.addData hsample
  | addTids _ ih => exact run_invariant ih fun _ _ h => h.addTid
  | lookUp _ ih => exact ih.setRow (ih.getD _)
  | update _ horder ih =>
    refine ⟨fun tid row hrow => ?_, fun src dst => ?_, fun src dst => ?_⟩
    · rw [update_table horder] at hrow
      obtain ⟨row', hrow', rfl⟩ := Option.map_eq_some_iff.mp hrow
      exact (ih.row tid row' hrow').updatedRow_checkRunning _
    · rw [update_latencies.1]
      exact ih.avLatencies src dst
    · rw [update_latencies.2]
      exact ih.memAccesses src dst
  | clearIt _ hlat ih =>
    refine ih.clear hlat (fun tid row hrow => ?_) rfl rfl
    simp only [TidPerfTable.clearIt] at hrow
    split_ifs at hrow
    obtain ⟨row', hrow', rfl⟩ := Option.map_eq_some_iff.mp hrow
    exact (ih.row tid row' hrow').clear
  | hardClear _ hlat ih => exact ih.clear hlat (fun _ _ hrow => nomatch hrow) rfl rfl
  | removeEntry _ ih =>
    refine ⟨fun tid' row hrow => ?_, ih.avLatencies, ih.memAccesses⟩
    simp only [TidPerfTable.removeEntry, Function.update_apply] at hrow
    split_ifs at hrow
    exact ih.row tid' row hrow

end TidPerfTable

/-! ### Scaling -/

namespace Rm3d

/-- The requests of the nodes up to `max_node`. -/
def sumReqs (T : Topology) (reqs : Node → ℤ) : ℤ :=
  ((List.range (T.maxNode + 1)).map reqs).sum

/-- Enough requests to the node have been sampled for one to be left after the scaling. -/
def Counted (T : Topology) (r : Rm3d R) (node : Node) : Prop :=
  if sumReqs T r.totalReqs = 0 ∨ sumReqs T r.nodeReqs = 0 then 1 ≤ r.nodeReqs node
  else sumReqs T r.nodeReqs ≤ r.nodeReqs node * sumReqs T r.totalReqs

instance (T : Topology) (r : Rm3d R) (node : Node) : Decidable (r.Counted T node) :=
  inferInstanceAs (Decidable (ite _ _ _))

/-- A sum of converted integers is a converted sum. -/
theorem foldl_add_real {ι : Type*} (f : ι → ℤ) (l : List ι) (start : ℚ) :
    l.foldl (fun acc i => acc + real (f i)) start = start + ((l.map f).sum : ℤ) := by
  induction l generalizing start with
  | nil => simp
  | cons i l ih =>
    rw [List.foldl_cons, ih, List.map_cons, List.sum_cons, Int.cast_add]
    exact add_assoc start (f i : ℚ) _

variable {T : Topology} {r : Rm3d ℚ} {node : Node}

theorem sumReqs_nonneg {reqs : Node → ℤ} (h : ∀ n, 0 ≤ reqs n) : 0 ≤ sumReqs T reqs :=
  List.sum_nonneg (List.forall_mem_map.mpr fun n _ => h n)

/-- The requests scaled in exact arithmetic. -/
theorem scaledNodeReqs_eq (htotal : ∀ n, 0 ≤ r.totalReqs n) (hreqs : ∀ n, 0 ≤ r.nodeReqs n) :
    r.scaledNodeReqs T node =
      if sumReqs T r.totalReqs = 0 ∨ sumReqs T r.nodeReqs = 0 then r.nodeReqs node
      else ⌊(r.nodeReqs node : ℚ) *
        ((sumReqs T r.totalReqs : ℚ) / (sumReqs T r.nodeReqs : ℚ))⌋ := by
  have hfold : ∀ reqs : Node → ℤ, (List.range (T.maxNode + 1)).foldl
      (fun acc n => acc + (real (reqs n) : ℚ)) (RealT.ofRat 0) = (sumReqs T reqs : ℚ) := by
    intro reqs
    rw [foldl_add_real]
    exact zero_add _
  have hscale : (0 : ℚ) ≤ (sumReqs T r.totalReqs : ℚ) / (sumReqs T r.nodeReqs : ℚ) :=
    div_nonneg (Int.cast_nonneg (sumReqs_nonneg htotal)) (Int.cast_nonneg (sumReqs_nonneg hreqs))
  have hzero : (sumReqs T r.totalReqs : ℚ) / (sumReqs T r.nodeReqs : ℚ) = 0 ↔
      sumReqs T r.totalReqs = 0 ∨ sumReqs T r.nodeReqs = 0 := by
    rw [div_eq_zero_iff, Int.cast_eq_zero, Int.cast_eq_zero]
  unfold scaledNodeReqs
  simp only [hfold]
  by_cases hunscaled : sumReqs T r.totalReqs = 0 ∨ sumReqs T r.nodeReqs = 0
  · have heq := hzero.mpr hunscaled
    rw [if_pos hunscaled, heq]
    rfl
  · have hne : (sumReqs T r.totalReqs : ℚ) / (sumReqs T r.nodeReqs : ℚ) ≠ 0 :=
      fun heq => hunscaled (hzero.mp heq)
    have hnormal : RealT.isNormal
        ((sumReqs T r.totalReqs : ℚ) / (sumReqs T r.nodeReqs : ℚ)) = true :=
      decide_eq_true hne
    have hbeq : (((sumReqs T r.totalReqs : ℚ) / (sumReqs T r.nodeReqs : ℚ)) ==
        (RealT.ofRat 0 : ℚ)) = false := beq_eq_false_iff_ne.mpr hne
    have hprod : (0 : ℚ) ≤ (r.nodeReqs node : ℚ) *
        ((sumReqs T r.totalReqs : ℚ) / (sumReqs T r.nodeReqs : ℚ)) :=
      mul_nonneg (Int.cast_nonneg (hreqs node)) hscale
    rw [if_neg hunscaled, if_neg]
    · exact if_pos hprod
    · have hlt : ¬ (sumReqs T r.totalReqs : ℚ) / (sumReqs T r.nodeReqs : ℚ) <
          (RealT.ofRat 0 : ℚ) := not_lt.mpr hscale
      simp [hnormal, hbeq, hlt]

theorem scaledNodeReqs_nonneg (htotal : ∀ n, 0 ≤ r.totalReqs n) (hreqs : ∀ n, 0 ≤ r.nodeReqs n) :
    0 ≤ r.scaledNodeReqs T node := by
  rw [scaledNodeReqs_eq htotal hreqs]
  split_ifs
  · exact hreqs node
  · exact Int.floor_nonneg.mpr (mul_nonneg (Int.cast_nonneg (hreqs node))
      (div_nonneg (Int.cast_nonneg (sumReqs_nonneg htotal))
        (Int.cast_nonneg (sumReqs_nonneg hreqs))))

/-- **Scaling.** -/
theorem one_le_scaledNodeReqs_iff (htotal : ∀ n, 0 ≤ r.totalReqs n)
    (hreqs : ∀ n, 0 ≤ r.nodeReqs n) : 1 ≤ r.scaledNodeReqs T node ↔ r.Counted T node := by
  rw [scaledNodeReqs_eq htotal hreqs, Counted]
  split_ifs with hunscaled
  · rfl
  · have hpos : (0 : ℚ) < (sumReqs T r.nodeReqs : ℚ) :=
      Int.cast_pos.mpr ((sumReqs_nonneg hreqs).lt_of_ne' (not_or.mp hunscaled).2)
    rw [Int.le_floor, Int.cast_one, ← mul_div_assoc, one_le_div hpos]
    exact_mod_cast Iff.rfl

end Rm3d

/-! ### Divisors -/

namespace Mapping.Thread

/-- `total_reqs` of `expected_perf`. -/
def totalReqs (g : Globals R) (thread : Thread R) : ℤ :=
  g.topology.nodes.foldl
    (fun totalReqs node => totalReqs + thread.rm3d.scaledNodeReqs g.topology node) 0

/-- `est_av_lat` of `expected_perf`. -/
def estAvLat (g : Globals R) (thread : Thread R) (dstNode : Node) : R :=
  g.topology.nodes.foldl (fun estAvLat node =>
      estAvLat + real (thread.rm3d.scaledNodeReqs g.topology node) *
        real (g.perfTable.avLatencies dstNode node)) (RealT.ofRat 0) /
    real (thread.totalReqs g)

/-- The expected performance by its divisors. -/
theorem expectedPerfAt_eq (g : Globals R) (thread : Thread R) (dstNode : Node) :
    thread.expectedPerfAt g dstNode =
      Rm3d.calcPerf (thread.rm3d.opsPerSecond thread.srcNode *
          real (thread.rm3d.avLatency g.settings thread.srcNode) / thread.estAvLat g dstNode)
        (thread.rm3d.opsPerByte g.settings thread.srcNode)
        (RealT.trunc (thread.estAvLat g dstNode)) :=
  rfl

/-- The quantities by which the expected performance is divided are positive. -/
structure DividesByPositive (g : Globals ℚ) (thread : Thread ℚ) (dstNode : Node) : Prop where
  totalReqs : 0 < thread.totalReqs g
  estAvLat : 0 < thread.estAvLat g dstNode

/-- A sum without negative terms is positive if a term is. -/
theorem sum_pos_iff {ι : Type*} {f : ι → ℤ} {l : List ι} (h : ∀ i ∈ l, 0 ≤ f i) :
    0 < (l.map f).sum ↔ ∃ i ∈ l, 0 < f i := by
  induction l with
  | nil => simp
  | cons i l ih =>
    obtain ⟨hi, hl⟩ := List.forall_mem_cons.mp h
    have hsum : 0 ≤ (l.map f).sum := List.sum_nonneg (List.forall_mem_map.mpr hl)
    rw [List.map_cons, List.sum_cons, List.exists_mem_cons_iff, ← ih hl]
    omega

variable {g : Globals ℚ} {thread : Thread ℚ} {dstNode : Node}

theorem totalReqs_eq : thread.totalReqs g =
    (g.topology.nodes.map (thread.rm3d.scaledNodeReqs g.topology)).sum := by
  rw [totalReqs, List.sum_eq_foldl, List.foldl_map]

theorem estAvLat_eq : thread.estAvLat g dstNode =
    ((g.topology.nodes.map fun node => thread.rm3d.scaledNodeReqs g.topology node *
      g.perfTable.avLatencies dstNode node).sum : ℤ) / (thread.totalReqs g : ℚ) := by
  have hfold := Rm3d.foldl_add_real (fun node => thread.rm3d.scaledNodeReqs g.topology node *
    g.perfTable.avLatencies dstNode node) g.topology.nodes 0
  rw [zero_add] at hfold
  rw [← hfold, estAvLat]
  congr 2
  funext acc node
  exact congrArg (acc + ·) (Int.cast_mul _ _).symm

/-- Both divisors are positive if a request is left at a node with a positive latency. -/
theorem dividesByPositive_iff_of_nonneg (htotal : ∀ n, 0 ≤ thread.rm3d.totalReqs n)
    (hreqs : ∀ n, 0 ≤ thread.rm3d.nodeReqs n)
    (hlat : ∀ src dst, 0 ≤ g.perfTable.avLatencies src dst) :
    thread.DividesByPositive g dstNode ↔
      ∃ node ∈ g.topology.nodes, thread.rm3d.Counted g.topology node ∧
        0 < g.perfTable.avLatencies dstNode node := by
  have hscaled : ∀ node, 0 ≤ thread.rm3d.scaledNodeReqs g.topology node :=
    fun node => Rm3d.scaledNodeReqs_nonneg htotal hreqs
  have hprod : ∀ node ∈ g.topology.nodes, 0 ≤ thread.rm3d.scaledNodeReqs g.topology node *
      g.perfTable.avLatencies dstNode node :=
    fun node _ => mul_nonneg (hscaled node) (hlat dstNode node)
  have hcounted : ∀ node, 0 < thread.rm3d.scaledNodeReqs g.topology node ↔
      thread.rm3d.Counted g.topology node :=
    fun node => Int.add_one_le_iff.symm.trans (Rm3d.one_le_scaledNodeReqs_iff htotal hreqs)
  constructor
  · rintro ⟨htotalReqs, hest⟩
    rw [estAvLat_eq, div_pos_iff_of_pos_right (Int.cast_pos.mpr htotalReqs), Int.cast_pos,
      sum_pos_iff hprod] at hest
    obtain ⟨node, hnode, hpos⟩ := hest
    have hne := (mul_ne_zero_iff.mp hpos.ne')
    exact ⟨node, hnode, (hcounted node).mp ((hscaled node).lt_of_ne' hne.1),
      (hlat dstNode node).lt_of_ne' hne.2⟩
  · rintro ⟨node, hnode, hcount, hpos⟩
    have hreq := (hcounted node).mpr hcount
    have htotalReqs : 0 < thread.totalReqs g := by
      rw [totalReqs_eq, sum_pos_iff fun node _ => hscaled node]
      exact ⟨node, hnode, hreq⟩
    refine ⟨htotalReqs, ?_⟩
    rw [estAvLat_eq, div_pos_iff_of_pos_right (Int.cast_pos.mpr htotalReqs), Int.cast_pos,
      sum_pos_iff hprod]
    exact ⟨node, hnode, mul_pos hreq hpos⟩

/-- **Divisors.** For a row of a table that the program can make. -/
theorem dividesByPositive_iff {t : TidPerfTable ℚ} {order : List Pid}
    (ht : t.Reachable g.topology) (hg : g.perfTable = t.toPerfTable order) {tid : Pid}
    {row : TidRow ℚ} (hrow : t.table tid = some row) {node : Node} :
    (⟨tid, row.performance.toRm3d, node, node⟩ : Thread ℚ).DividesByPositive g dstNode ↔
      ∃ node ∈ g.topology.nodes, row.performance.Counted g.topology node ∧
        0 < t.avLatencies dstNode node := by
  have hnonneg := ht.nonneg.row tid row hrow
  rw [dividesByPositive_iff_of_nonneg hnonneg.totalReqs hnonneg.nodeReqs]
  · rw [hg]
    rfl
  · rw [hg]
    exact ht.nonneg.avLatencies

/-- Two nodes with two CPUs each. -/
abbrev twoByTwo : Topology :=
  .regular 2 2 Nat.two_pos Nat.two_pos

/-- Processes that run on node 0. -/
def atNodeZero : System ℚ :=
  .boot twoByTwo 1 (fun _ => ⟨none, true, false, ⟨'R', 0, 0, 1⟩⟩)
    ⟨fun _ => true, 0, fun _ => {0, 1, 2, 3}, {0, 1, 2, 3}⟩

/-- The tables of the program with a table of thread performance that is visited in an order. -/
def globalsOf (t : TidPerfTable ℚ) (order : List Pid) : Globals ℚ :=
  ⟨twoByTwo, .default 1 64, t.toPerfTable order, atNodeZero⟩

/-- Thread 1 has requested memory of node 1. -/
def sampledTable : TidPerfTable ℚ :=
  ((TidPerfTable.new (.default 1 64)).addData (.default 1 64) twoByTwo
    (.mem (.single 0 1 4096 5 1))).addData (.default 1 64) twoByTwo (.reqs ⟨0, 1, 3⟩)

theorem sampledTable_reachable : sampledTable.Reachable twoByTwo :=
  .addData (.addData (.new Int.one_pos) Int.one_pos (Int.natCast_nonneg 5)) Int.one_pos
    (Int.natCast_nonneg 3)

theorem dividesByPositive_iff_sampledTable :
    ∃ row, sampledTable.table 1 = some row ∧
      (⟨1, row.performance.toRm3d, 0, 0⟩ : Thread ℚ).DividesByPositive
        (globalsOf sampledTable [1]) 1 := by
  have hrow : (sampledTable.table 1).isSome := rfl
  obtain ⟨row, hrow⟩ := Option.isSome_iff_exists.mp hrow
  refine ⟨row, hrow, (dividesByPositive_iff sampledTable_reachable rfl hrow).mpr ⟨1, ?_, ?_⟩⟩
  · decide
  · obtain rfl := Option.some.inj hrow
    decide +kernel

/-- The row of a thread that has just been added counts no request. -/
theorem not_dividesByPositive :
    ¬ ∀ (g : Globals ℚ) (t : TidPerfTable ℚ) (order : List Pid), t.Reachable g.topology →
      g.perfTable = t.toPerfTable order → ∀ tid row, t.table tid = some row →
      ∀ node ∈ g.topology.nodes, ∀ dstNode ∈ g.topology.nodes,
        (⟨tid, row.performance.toRm3d, node, node⟩ : Thread ℚ).DividesByPositive g dstNode := by
  intro h
  have hdiv := h
    (globalsOf ((TidPerfTable.new (.default 1 64)).addTids (.default 1 64) atNodeZero {1}) [1])
    ((TidPerfTable.new (.default 1 64)).addTids (.default 1 64) atNodeZero {1}) [1]
    (.addTids (.new Int.one_pos)) rfl 1 (.new (.default 1 64)) rfl 0 (by decide) 1 (by decide)
  exact absurd hdiv.totalReqs (by decide +kernel)

end Mapping.Thread

end Thanos
