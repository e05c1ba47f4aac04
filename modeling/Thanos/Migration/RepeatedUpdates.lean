import Mathlib.Algebra.Order.BigOperators.Group.List
import Thanos.Migration.TidPerfTable
import Thanos.SystemInfo.PlacementRuns

/-!
# Several updates of the table of thread performance

`perform_strategy` updates the table twice if it prints it, and `balance` once more after a
migration, with no sample in between. The rows do not change after the first update, but the
means of a process are accumulated in entries that only `clear_it` resets.

* **Iterations** (`iterate_update_meanPerfPid`): from one update to the next the mean takes in
  the same performances again.
* **Repetition** (`repeatable_iff`): in exact arithmetic, several updates leave the means of one
  update exactly when no running thread has a valid performance.
-/

namespace Thanos

namespace TidPerfTable

section Iterations

variable {R : Type} [RealT R] {settings : Settings R} {T : Topology} {s : System R}
  {order : List Pid} {t : TidPerfTable R} {pid : Pid} {k : ℕ}

theorem iterationOrder_update (h : t.IterationOrder order) :
    (t.update settings T s order).IterationOrder order := by
  refine ⟨h.1, fun tid => ?_⟩
  rw [h.2, update_table h]
  simp

theorem iterationOrder_iterate_update (h : t.IterationOrder order) :
    ((update settings T s order)^[k] t).IterationOrder order := by
  induction k with
  | zero => exact h
  | succ k ih =>
    rw [Function.iterate_succ_apply']
    exact iterationOrder_update ih

/-- A row does not change after it has been computed. -/
theorem updatedRow_checkRunning_updatedRow (row : TidRow R) (running : Bool) :
    updatedRow settings T
        ((updatedRow settings T (row.checkRunning running)).checkRunning running) =
      updatedRow settings T (row.checkRunning running) := by
  rw [updatedRow_checkRunning, updatedRow_checkRunning]
  by_cases hrunning : (row.running || running) = true
  · simp [hrunning, LiveRm3d.calcPerf_calcPerf]
  · rw [if_neg hrunning, if_neg hrunning]

/-- **Updates** of the table compute no row twice. -/
theorem update_update_table (h : t.IterationOrder order) :
    ((t.update settings T s order).update settings T s order).table =
      (t.update settings T s order).table := by
  rw [update_table (iterationOrder_update h), update_table h]
  funext tid
  rw [Option.map_map]
  congr 1
  funext row
  exact updatedRow_checkRunning_updatedRow row (s.isRunning tid)

theorem iterate_update_table (h : t.IterationOrder order) :
    ((update settings T s order)^[k + 1] t).table = (t.update settings T s order).table := by
  induction k generalizing t with
  | zero => rfl
  | succ k ih =>
    rw [Function.iterate_succ_apply, ih (iterationOrder_update h), update_update_table h]

/-- The performances that every update takes in. -/
theorem iterate_update_processPerfs (settings : Settings R) (T : Topology) (s : System R)
    (pid : Pid) (k : ℕ) (h : t.IterationOrder order) :
    ((update settings T s order)^[k + 1] t).processPerfs s order pid =
      (t.update settings T s order).processPerfs s order pid :=
  processPerfs_congr fun tid _ => congrFun (iterate_update_table h) tid

/-- What one update makes of a mean, several updates do again and again. -/
theorem iterate_update_mean {mean : TidPerfTable R → Pid → R} {value : R × R → R}
    (hmean : ∀ t : TidPerfTable R, t.IterationOrder order →
      mean (t.update settings T s order) pid =
        nextMean (((t.update settings T s order).processPerfs s order pid).map value) (mean t pid))
    (h : t.IterationOrder order) :
    mean ((update settings T s order)^[k] t) pid =
      (nextMean (((t.update settings T s order).processPerfs s order pid).map value))^[k]
        (mean t pid) := by
  induction k with
  | zero => rfl
  | succ k ih =>
    have hperfs := iterate_update_processPerfs settings T s pid k h
    rw [Function.iterate_succ_apply'] at hperfs ⊢
    rw [hmean _ (iterationOrder_iterate_update h), hperfs, ih, Function.iterate_succ_apply']

/-- **Iterations.** -/
theorem iterate_update_meanPerfPid (h : t.IterationOrder order) :
    ((update settings T s order)^[k] t).meanPerfPid pid =
      (nextMean (((t.update settings T s order).processPerfs s order pid).map Prod.fst))^[k]
        (t.meanPerfPid pid) :=
  iterate_update_mean (fun _ => update_meanPerfPid) h

/-- **Iterations** of the CPU use. -/
theorem iterate_update_meanCpuUsePid (h : t.IterationOrder order) :
    ((update settings T s order)^[k] t).meanCpuUsePid pid =
      (nextMean (((t.update settings T s order).processPerfs s order pid).map Prod.snd))^[k]
        (t.meanCpuUsePid pid) :=
  iterate_update_mean (fun _ => update_meanCpuUsePid) h

theorem iterate_update_avLatencies :
    ((update settings T s order)^[k] t).avLatencies = t.avLatencies := by
  induction k with
  | zero => rfl
  | succ k ih => rw [Function.iterate_succ_apply', update_avLatencies, ih]

/-- If no thread has a valid performance, the planners see the same table after every update. -/
theorem toPerfTable_iterate_update (h : t.IterationOrder order)
    (hnone : ∀ pid, (t.update settings T s order).processPerfs s order pid = []) :
    ((update settings T s order)^[k + 1] t).toPerfTable order =
      (t.update settings T s order).toPerfTable order := by
  have hsame : ∀ mean : R, (nextMean ([] : List R))^[k + 1] mean = nextMean [] mean :=
    fun mean => Function.iterate_fixed (by simp [nextMean]) (k + 1)
  rw [toPerfTable, toPerfTable, iterate_update_table h, iterate_update_avLatencies,
    update_avLatencies, PerfTable.mk.injEq]
  refine ⟨rfl, ?_, ?_, rfl⟩
  · funext pid
    rw [iterate_update_meanPerfPid h, update_meanPerfPid h, hnone, List.map_nil, hsame]
  · funext pid
    rw [iterate_update_meanCpuUsePid h, update_meanCpuUsePid h, hnone, List.map_nil, hsame]

end Iterations

/-! ### Exact arithmetic -/

section Exact

variable {settings : Settings ℚ} {T : Topology} {s : System ℚ} {order : List Pid}
  {t : TidPerfTable ℚ} {pid tid : Pid} {values : List ℚ} {k : ℕ}

/-- The arithmetic mean. -/
def arithmeticMean (values : List ℚ) : ℚ :=
  values.sum / values.length

theorem foldl_add (mean : ℚ) : values.foldl (· + ·) mean = mean + values.sum := by
  induction values generalizing mean with
  | nil => simp
  | cons value values ih => rw [List.foldl_cons, ih, List.sum_cons, add_assoc]

theorem nextMean_eq (hne : values ≠ []) {mean : ℚ} (h : (mean + values.sum) / values.length ≠ 0) :
    nextMean values mean = (mean + values.sum) / values.length := by
  have hlength : values.length ≠ 0 := List.length_eq_zero_iff.not.mpr hne
  have hreal : (real values.length : ℚ) = values.length := by simp [real, RealT.ofRat]
  rw [nextMean, if_neg hlength, foldl_add, hreal, normalised, if_pos]
  simpa [RealT.isNormal] using h

/-- The first update computes the mean. -/
theorem nextMean_zero (hne : values ≠ []) (h : arithmeticMean values ≠ 0) :
    nextMean values 0 = arithmeticMean values := by
  rw [arithmeticMean] at h ⊢
  rw [nextMean_eq hne (by rwa [zero_add]), zero_add]

theorem ne_nil_of_sum_pos (hpos : 0 < values.sum) : values ≠ [] := by
  rintro rfl
  simp at hpos

theorem length_pos_of_sum_pos (hpos : 0 < values.sum) : (0 : ℚ) < values.length := by
  exact_mod_cast List.length_pos_iff.mpr (ne_nil_of_sum_pos hpos)

theorem arithmeticMean_pos (hpos : 0 < values.sum) : 0 < arithmeticMean values :=
  div_pos hpos (length_pos_of_sum_pos hpos)

theorem nextMean_pos (hpos : 0 < values.sum) {mean : ℚ} (h : 0 ≤ mean) :
    nextMean values mean = (mean + values.sum) / values.length ∧ 0 < nextMean values mean := by
  have hlength := length_pos_of_sum_pos hpos
  have hnext : 0 < (mean + values.sum) / values.length := by positivity
  rw [nextMean_eq (ne_nil_of_sum_pos hpos) hnext.ne']
  exact ⟨rfl, hnext⟩

/-- All further updates of a positive mean make it larger. -/
theorem arithmeticMean_lt_iterate (hpos : 0 < values.sum) :
    arithmeticMean values < (nextMean values)^[k + 2] 0 := by
  have hiterate : ∀ k, 0 < (nextMean values)^[k + 1] 0 := by
    intro k
    induction k with
    | zero => exact (nextMean_pos hpos le_rfl).2
    | succ k ih =>
      rw [Function.iterate_succ_apply']
      exact (nextMean_pos hpos ih.le).2
  rw [Function.iterate_succ_apply', (nextMean_pos hpos (hiterate k).le).1, arithmeticMean]
  exact div_lt_div_of_pos_right (lt_add_of_pos_left _ (hiterate k)) (length_pos_of_sum_pos hpos)

/-- No performance has decayed to nothing; `decay` is one or the exponential of a number. -/
def Decaying (t : TidPerfTable ℚ) : Prop :=
  ∀ tid row, t.table tid = some row → ∀ node, 0 < row.performance.decay node

theorem Decaying.clearIt (h : Decaying t) (settings : Settings ℚ) (T : Topology)
    (isPidAlive : Pid → Bool) : Decaying (t.clearIt settings T isPidAlive) := by
  intro tid row hrow node
  simp only [TidPerfTable.clearIt, Option.ite_none_right_eq_some, Option.map_eq_some_iff] at hrow
  obtain ⟨-, row', hrow', rfl⟩ := hrow
  exact h tid row' hrow' node

theorem addData_table (sample : ThreadSample) :
    (t.addData settings T sample).table = Function.update t.table sample.tid
      (some (((t.table sample.tid).getD (.new settings)).addData T sample)) := by
  cases sample <;> rfl

theorem Decaying.record (h : Decaying t) (settings : Settings ℚ) (T : Topology)
    (samples : List ThreadSample) : Decaying (t.record settings T samples) := by
  refine run_invariant (I := Decaying) h fun t sample ht tid row hrow node => ?_
  rw [addData_table, Function.update_apply] at hrow
  split_ifs at hrow with heq
  · obtain rfl := Option.some.inj hrow
    have hdecay : ∀ (r : LiveRm3d ℚ), (r.addData T sample).decay = r.decay := by
      intro r
      cases sample <;> rfl
    rw [TidRow.addData, hdecay]
    rcases hrow' : t.table sample.tid with _ | row'
    · exact zero_lt_one
    · exact ht sample.tid row' hrow' node
  · exact ht tid row hrow node

theorem Decaying.update (h : Decaying t) (horder : t.IterationOrder order) :
    Decaying (t.update settings T s order) := by
  intro tid row hrow node
  rw [update_table horder, Option.map_eq_some_iff] at hrow
  obtain ⟨row', hrow', rfl⟩ := hrow
  have hdecay := h tid row' hrow' node
  rw [updatedRow_checkRunning]
  split_ifs
  · rw [LiveRm3d.calcPerf_decay]
    split_ifs
    · exact zero_lt_one
    · exact hdecay
  · exact hdecay

/-- A valid performance is positive. -/
theorem validPerf_pos (h : Decaying t) {perf : ℚ} (hperf : t.validPerf s tid = some perf) :
    0 < perf := by
  unfold validPerf at hperf
  split at hperf
  · cases hperf
  · next row hrow =>
    simp only [Option.ite_none_right_eq_some, Bool.and_eq_true, Bool.not_eq_true',
      decide_eq_false_iff_not] at hperf
    obtain ⟨⟨-, hvalid⟩, heq⟩ := hperf
    obtain rfl := Option.some.inj heq
    have hdecay := h tid row hrow (s.proc tid).pinnedNumaNode
    rw [Rm3d.perfNode] at hvalid ⊢
    split_ifs at hvalid ⊢ with hcond
    · exact absurd (by decide) hvalid
    · obtain ⟨hnonneg, hnormal⟩ := not_or.mp hcond
      have hne : (row.performance.perfs (s.proc tid).pinnedNumaNode) ≠ 0 := by
        simpa [RealT.isNormal] using hnormal
      exact mul_pos (lt_of_le_of_ne (not_lt.mp hnonneg) hne.symm) hdecay

/-- The table that planners see after some updates of a table, and with it all else they read. -/
def globalsAfter (settings : Settings ℚ) (T : Topology) (s : System ℚ) (order : List Pid)
    (t : TidPerfTable ℚ) (k : ℕ) : Globals ℚ :=
  ⟨T, settings, ((update settings T s order)^[k] t).toPerfTable order, s⟩

/-- A mean is that of some values, unless there are none or their mean is zero. -/
def IsMeanOf (mean : ℚ) (values : List ℚ) : Prop :=
  values ≠ [] → arithmeticMean values ≠ 0 → mean = arithmeticMean values

/-- After `k` updates the means are those of the running threads with a valid performance, and
the relative performances and the selected threads are those after one update. -/
structure Repeatable (settings : Settings ℚ) (T : Topology) (s : System ℚ) (order : List Pid)
    (t : TidPerfTable ℚ) (k : ℕ) : Prop where
  meanPerfPid : ∀ pid, IsMeanOf (((update settings T s order)^[k] t).meanPerfPid pid)
    ((((update settings T s order)^[k] t).processPerfs s order pid).map Prod.fst)
  meanCpuUsePid : ∀ pid, IsMeanOf (((update settings T s order)^[k] t).meanCpuUsePid pid)
    ((((update settings T s order)^[k] t).processPerfs s order pid).map Prod.snd)
  relPerformance : ∀ tid, (globalsAfter settings T s order t k).relPerformance tid =
    (globalsAfter settings T s order t 1).relPerformance tid
  worstTidPerf : ∀ eligible, (globalsAfter settings T s order t k).worstTidPerf eligible =
    (globalsAfter settings T s order t 1).worstTidPerf eligible

/-- A thread that the next update takes for running gets a valid performance. -/
def GetsPerformance (settings : Settings ℚ) (T : Topology) (s : System ℚ) (t : TidPerfTable ℚ)
    (tid : Pid) : Prop :=
  ∃ row, t.table tid = some row ∧ (row.running = true ∨ s.isRunning tid = true) ∧
    0 ≤ (row.calcPerf settings T).performance.perfNode (s.proc tid).pinnedNumaNode

theorem validPerf_update (horder : t.IterationOrder order) :
    ((t.update settings T s order).validPerf s tid).isSome = true ↔
      GetsPerformance settings T s t tid := by
  have htable : (t.update settings T s order).table tid = (t.table tid).map fun row =>
      updatedRow settings T (row.checkRunning (s.isRunning tid)) := by
    rw [update_table horder]
  rw [GetsPerformance]
  rcases hrow : t.table tid with _ | row
  · rw [hrow] at htable
    simp [validPerf_of_none htable]
  · rw [hrow, Option.map_some, updatedRow_checkRunning] at htable
    cases hrunning : row.running || s.isRunning tid with
    | false =>
      obtain ⟨hrow', hs⟩ := Bool.or_eq_false_iff.mp hrunning
      rw [hrunning, if_neg Bool.false_ne_true] at htable
      rw [validPerf_of_some htable, hrow']
      simp [hrow', hs]
    | true =>
      have hor : row.running = true ∨ s.isRunning tid = true := by simpa using hrunning
      rw [hrunning, if_pos rfl] at htable
      rw [validPerf_of_some htable]
      simp [hor, TidRow.calcPerf, RealT.ofRat]

/-- No process has a valid performance exactly when no thread gets one. -/
theorem processPerfs_update_eq_nil_iff (horder : t.IterationOrder order) :
    (∀ pid, (t.update settings T s order).processPerfs s order pid = []) ↔
      ∀ tid, ¬ GetsPerformance settings T s t tid := by
  constructor
  · intro h tid hgets
    have hmem : tid ∈ order := by
      obtain ⟨row, hrow, -⟩ := hgets
      rw [horder.2, hrow, Option.isSome_some]
    obtain ⟨perf, hperf⟩ := Option.isSome_iff_exists.mp ((validPerf_update horder).mpr hgets)
    have hnil := List.filterMap_eq_nil_iff.mp (h (s.pidFromTid tid)) tid hmem
    simp [hperf] at hnil
  · intro h pid
    refine List.filterMap_eq_nil_iff.mpr fun tid _ => ?_
    have hnone := (validPerf_update horder).not.mpr (h tid)
    rw [Option.not_isSome_iff_eq_none] at hnone
    simp [hnone]

/-- The performances of a process with one of them add up to something. -/
theorem sum_processPerfs_pos (horder : t.IterationOrder order) (hdecay : Decaying t)
    (h : (t.update settings T s order).processPerfs s order pid ≠ []) :
    0 < (((t.update settings T s order).processPerfs s order pid).map Prod.fst).sum := by
  refine List.sum_pos _ (fun perf hperf => ?_) (by simpa using h)
  obtain ⟨e, he, rfl⟩ := List.mem_map.mp hperf
  obtain ⟨tid, -, hsome⟩ := List.mem_filterMap.mp he
  simp only [Option.ite_none_right_eq_some, Option.map_eq_some_iff] at hsome
  obtain ⟨-, perf, hvalid, rfl⟩ := hsome
  exact validPerf_pos (hdecay.update horder) hvalid

theorem record_meanPerfPid (settings : Settings ℚ) (T : Topology) (t : TidPerfTable ℚ)
    (samples : List ThreadSample) :
    (t.record settings T samples).meanPerfPid = t.meanPerfPid ∧
      (t.record settings T samples).meanCpuUsePid = t.meanCpuUsePid := by
  refine run_invariant (I := fun t' : TidPerfTable ℚ => t'.meanPerfPid = t.meanPerfPid ∧
    t'.meanCpuUsePid = t.meanCpuUsePid) ⟨rfl, rfl⟩ fun t' sample ht' => ?_
  cases sample <;> exact ht'

/-- After one update everything is as it should be. -/
theorem repeatable_one (horder : t.IterationOrder order) (hperf : t.meanPerfPid = 0)
    (hcpu : t.meanCpuUsePid = 0) : Repeatable settings T s order t 1 where
  meanPerfPid pid := by
    intro hne hmean
    rw [Function.iterate_one, update_meanPerfPid horder, hperf]
    exact nextMean_zero hne hmean
  meanCpuUsePid pid := by
    intro hne hmean
    rw [Function.iterate_one, update_meanCpuUsePid horder, hcpu]
    exact nextMean_zero hne hmean
  relPerformance _ := rfl
  worstTidPerf _ := rfl

/-- **Repetition.** -/
theorem repeatable_iff (hk : 1 ≤ k) (isPidAlive : Pid → Bool) (samples : List ThreadSample)
    (hdecay : Decaying t)
    (horder : ((t.clearIt settings T isPidAlive).record settings T samples).IterationOrder order) :
    Repeatable settings T s order ((t.clearIt settings T isPidAlive).record settings T samples) k ↔
      k = 1 ∨ ∀ tid, ¬ GetsPerformance settings T s
        ((t.clearIt settings T isPidAlive).record settings T samples) tid := by
  obtain ⟨hperf, hcpu⟩ := record_meanPerfPid settings T (t.clearIt settings T isPidAlive) samples
  have hdecay' := (hdecay.clearIt settings T isPidAlive).record settings T samples
  generalize (t.clearIt settings T isPidAlive).record settings T samples = t' at *
  obtain ⟨k, rfl⟩ := Nat.exists_eq_add_of_le' hk
  rw [← processPerfs_update_eq_nil_iff horder]
  constructor
  · intro h
    by_contra hnot
    obtain ⟨hk, hsome⟩ := not_or.mp hnot
    obtain ⟨pid, hpid⟩ := not_forall.mp hsome
    obtain ⟨k, rfl⟩ := Nat.exists_eq_succ_of_ne_zero (show k ≠ 0 by omega)
    have hperfs := iterate_update_processPerfs settings T s pid (k + 1) horder
    have hpos := sum_processPerfs_pos horder hdecay' hpid
    -- the mean of a process with a valid performance has grown since the first update
    have hgrown := arithmeticMean_lt_iterate (k := k) hpos
    have hmean := h.meanPerfPid pid
    rw [hperfs, iterate_update_meanPerfPid horder, hperf] at hmean
    have hne := (arithmeticMean_pos hpos).ne'
    exact absurd (hmean (by simpa using hpid) hne) hgrown.ne'
  · rintro (hk | hnil)
    · obtain rfl : k = 0 := by omega
      exact repeatable_one horder hperf hcpu
    · have hnone : ∀ pid, ((update settings T s order)^[k + 1] t').processPerfs s order pid = [] :=
        fun pid => by rw [iterate_update_processPerfs settings T s pid k horder, hnil]
      have hglobals : globalsAfter settings T s order t' (k + 1) =
          globalsAfter settings T s order t' 1 := by
        rw [globalsAfter, toPerfTable_iterate_update horder hnil]
        rfl
      refine ⟨fun pid hne => ?_, fun pid hne => ?_, fun tid => ?_, fun eligible => ?_⟩
      · exact absurd (by rw [hnone pid, List.map_nil]) hne
      · exact absurd (by rw [hnone pid, List.map_nil]) hne
      · rw [hglobals]
      · rw [hglobals]

/-! ### One thread -/

/-- Two nodes with one CPU each. -/
def twoNodes : Topology :=
  .regular 2 1 Nat.two_pos Nat.one_pos

/-- Processes that run on node 0. -/
def onNodeZero : System ℚ :=
  .boot twoNodes 1 (fun _ => ⟨none, true, false, ⟨'R', 0, 0, 1⟩⟩)
    ⟨fun _ => true, 0, fun _ => {0, 1}, {0, 1}⟩

/-- Thread 1 has executed instructions and requested memory on node 0. -/
def oneThread : List ThreadSample :=
  [.inst ⟨0, 1, 1000, 1000, 1, false⟩, .reqs ⟨0, 1, 1⟩]

theorem oneThread_iterationOrder :
    (((new (.default 1 64) : TidPerfTable ℚ).clearIt (.default 1 64) twoNodes
      fun _ => true).record (.default 1 64) twoNodes oneThread).IterationOrder [1] := by
  refine ⟨by decide, fun tid => ?_⟩
  by_cases h : tid = 1
  · subst h
    decide +kernel
  · simp [oneThread, record, addData, setRow, clearIt, new, ThreadSample.tid, h]

/-- The table is right after one update, but not after two. -/
theorem repeatable_iff_oneThread :
    Repeatable (.default 1 64) twoNodes onNodeZero [1]
        (((new (.default 1 64) : TidPerfTable ℚ).clearIt (.default 1 64) twoNodes
          fun _ => true).record (.default 1 64) twoNodes oneThread) 1 ∧
      ¬ Repeatable (.default 1 64) twoNodes onNodeZero [1]
        (((new (.default 1 64) : TidPerfTable ℚ).clearIt (.default 1 64) twoNodes
          fun _ => true).record (.default 1 64) twoNodes oneThread) 2 := by
  have hdecay : Decaying (new (.default 1 64)) := fun tid row hrow => by cases hrow
  refine ⟨(repeatable_iff le_rfl _ _ hdecay oneThread_iterationOrder).mpr (.inl rfl), fun h => ?_⟩
  obtain hk | hnone := (repeatable_iff one_le_two _ _ hdecay oneThread_iterationOrder).mp h
  · exact absurd hk (by decide)
  · exact hnone 1 ⟨_, rfl, .inl rfl, by decide +kernel⟩

/-- A second update doubles the mean of a process with one thread. -/
theorem not_repeatable :
    ¬ ∀ (settings : Settings ℚ) (T : Topology) (s : System ℚ) (order : List Pid)
      (t : TidPerfTable ℚ) (isPidAlive : Pid → Bool) (samples : List ThreadSample) (k : ℕ),
      1 ≤ k → Decaying t →
      ((t.clearIt settings T isPidAlive).record settings T samples).IterationOrder order →
      Repeatable settings T s order ((t.clearIt settings T isPidAlive).record settings T samples)
        k := by
  intro h
  have hmean := (h (.default 1 64) twoNodes onNodeZero [1] (new (.default 1 64)) (fun _ => true)
    oneThread 2 one_le_two (fun tid row hrow => by cases hrow) oneThread_iterationOrder).meanPerfPid
    1
  exact absurd (hmean (by decide +kernel) (by decide +kernel)) (by decide +kernel)

end Exact

end TidPerfTable

end Thanos
