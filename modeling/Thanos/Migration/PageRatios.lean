import Mathlib.Algebra.BigOperators.Group.List.Basic
import Mathlib.Algebra.BigOperators.Ring.Finset
import Mathlib.Algebra.Order.BigOperators.Group.List
import Thanos.Library.Run
import Thanos.Migration.MempagesTable

/-!
# The ratios of a memory page

A row of the table of memory pages computes the ratios of the accesses per node when they are
read, and keeps them until the row changes. Here the operations of a row follow one another in
any order, reads of the ratios included, in exact arithmetic.

* **One operation** (`KeepsRatios.apply`): what is kept agrees with what has been counted.
* **Ratios** (`ratios_run`): what is read after any operations are the shares of the accesses
  since the last `clear`.
-/

namespace Thanos

namespace PageRow

section

variable {R : Type} [RealT R]

/-- `increase_age`. -/
def increaseAge (row : PageRow R) : PageRow R :=
  { row with
    ratiosComputed := false
    age := row.age + 1 }

/-- The operations of a row. -/
inductive Op (R : Type) where
  | addData (sample : MemorySample) (agingFactor : R)
  | clear
  | increaseAge
  /-- A read of `ratios()` or of `ratio(node)`. -/
  | ratios

variable (settings : Settings R) (T : Topology)

/-- What an operation leaves of a row. -/
def apply (row : PageRow R) : Op R → PageRow R
  | .addData sample agingFactor => row.addData T sample agingFactor
  | .clear => row.clear settings
  | .increaseAge => row.increaseAge
  | .ratios => row.withRatios T

/-- The samples since the last `clear`, after one more operation. -/
def sinceClear (samples : List MemorySample) : Op R → List MemorySample
  | .addData sample _ => samples ++ [sample]
  | .clear => []
  | .increaseAge => samples
  | .ratios => samples

/-- The samples added are of pages on the allowed nodes. -/
def OnNodes (ops : List (Op R)) : Prop :=
  ∀ sample agingFactor, .addData sample agingFactor ∈ ops → sample.pageNode ∈ T.nodes

/-- The accesses counted on all nodes. -/
def totalAccesses (row : PageRow R) : ℕ :=
  ((List.range (T.maxNode + 1)).map row.rawAccesses).sum

variable {T} {row : PageRow R} {node : Node}

omit [RealT R] in
theorem foldl_rawAccesses :
    (List.range (T.maxNode + 1)).foldl (fun n node => n + row.rawAccesses node) 0 =
      row.totalAccesses T := by
  rw [totalAccesses, List.sum_eq_foldl, List.foldl_map]

theorem computeRatios_eq :
    row.computeRatios T =
      if row.totalAccesses T = 0 then row
      else
        { row with
          ratios := fun node =>
            if node ∈ T.nodes then real (row.rawAccesses node) / real (row.totalAccesses T)
            else row.ratios node
          ratiosComputed := true } := by
  rw [← foldl_rawAccesses, computeRatios]

/-- `ratio` reads what `ratios` returns. -/
theorem ratio_eq : row.ratio T node = (row.withRatios T).ratios node := by
  rw [ratio, withRatios, computeRatios_eq]
  cases hcomputed : row.ratiosComputed with
  | true => simp
  | false =>
    rw [foldl_rawAccesses]
    by_cases htotal : row.totalAccesses T = 0
    · simp [htotal]
    · by_cases hnode : node ∈ T.nodes
      · simp [htotal, hnode]
      · simp [htotal, hnode]

end

/-! ### What a row keeps -/

variable (T : Topology)

/-- The share of a node in the accesses counted, zero if there are none. -/
def share (row : PageRow ℚ) (node : Node) : ℚ :=
  row.rawAccesses node / row.totalAccesses T

/-- The row has counted the samples, and what it keeps as ratios is not out of date. -/
structure KeepsRatios (row : PageRow ℚ) (samples : List MemorySample) : Prop where
  onNodes : ∀ sample ∈ samples, sample.pageNode ∈ T.nodes
  rawAccesses : ∀ node, row.rawAccesses node = resided samples node
  computed : row.ratiosComputed = true → ∀ node, row.ratios node = row.share T node
  /-- Nothing is computed for other nodes. -/
  of_notMem : ∀ node, node ∉ T.nodes → row.ratios node = 0
  /-- Nothing is computed without an access. -/
  of_nil : samples = [] → ∀ node, row.ratios node = 0

variable {T} {settings : Settings ℚ} {row : PageRow ℚ} {samples : List MemorySample}
  {node : Node}

namespace KeepsRatios

/-- No other node has been counted. -/
theorem rawAccesses_of_notMem (h : KeepsRatios T row samples) (hnode : node ∉ T.nodes) :
    row.rawAccesses node = 0 := by
  rw [h.rawAccesses, resided, List.countP_eq_zero]
  intro sample hsample heq
  exact hnode (of_decide_eq_true heq ▸ h.onNodes sample hsample)

/-- There is an access in total as soon as there is a sample. -/
theorem totalAccesses_eq_zero_iff (h : KeepsRatios T row samples)
    (hmax : ∀ node ∈ T.nodes, node ≤ T.maxNode) :
    row.totalAccesses T = 0 ↔ samples = [] := by
  constructor
  · intro htotal
    refine List.eq_nil_iff_forall_not_mem.mpr fun sample hsample => ?_
    have hnode := hmax _ (h.onNodes sample hsample)
    have hraw : row.rawAccesses sample.pageNode = 0 :=
      List.sum_eq_zero_iff.mp htotal _
        (List.mem_map_of_mem (List.mem_range.mpr (Nat.lt_succ_of_le hnode)))
    rw [h.rawAccesses, resided, List.countP_eq_zero] at hraw
    exact hraw sample hsample (decide_eq_true rfl)
  · rintro rfl
    refine List.sum_eq_zero_iff.mpr (List.forall_mem_map.mpr fun node _ => ?_)
    exact h.rawAccesses node

/-- What is read is up to date. -/
theorem withRatios_ratios (h : KeepsRatios T row samples)
    (hmax : ∀ node ∈ T.nodes, node ≤ T.maxNode) :
    (row.withRatios T).ratios node = row.share T node := by
  rw [PageRow.withRatios, computeRatios_eq]
  split_ifs with hcomputed htotal
  · exact h.computed hcomputed node
  · have hnil := (h.totalAccesses_eq_zero_iff hmax).mp htotal
    rw [h.of_nil hnil, share, htotal, Nat.cast_zero, div_zero]
  · by_cases hnode : node ∈ T.nodes
    · exact if_pos hnode
    · rw [share, h.rawAccesses_of_notMem hnode, Nat.cast_zero, zero_div]
      exact (if_neg hnode).trans (h.of_notMem node hnode)

theorem new (lastPid : Pid) (lastNode : Node) :
    KeepsRatios T (PageRow.new lastPid lastNode) [] where
  onNodes := List.forall_mem_nil _
  rawAccesses _ := rfl
  computed h := absurd h Bool.false_ne_true
  of_notMem _ _ := rfl
  of_nil _ _ := rfl

theorem addData {sample : MemorySample} {agingFactor : ℚ} (h : KeepsRatios T row samples)
    (hnode : sample.pageNode ∈ T.nodes) :
    KeepsRatios T (row.addData T sample agingFactor) (samples ++ [sample]) where
  onNodes := by
    intro other hother
    obtain hother | hother := List.mem_append.mp hother
    · exact h.onNodes other hother
    · exact List.mem_singleton.mp hother ▸ hnode
  rawAccesses node := by
    have hcount : resided (samples ++ [sample]) node =
        resided samples node + if sample.pageNode = node then 1 else 0 := by
      simp [resided, List.countP_cons]
    rw [hcount, ← h.rawAccesses]
    by_cases heq : sample.pageNode = node
    · subst heq
      simp [PageRow.addData]
    · simp [PageRow.addData, heq, Function.update_of_ne (Ne.symm heq)]
  computed hcomputed := absurd hcomputed Bool.false_ne_true
  of_notMem := h.of_notMem
  of_nil hnil := absurd hnil (by simp)

theorem clear : KeepsRatios T (row.clear settings) [] where
  onNodes := List.forall_mem_nil _
  rawAccesses _ := rfl
  computed h := absurd h Bool.false_ne_true
  of_notMem _ _ := rfl
  of_nil _ _ := rfl

theorem increaseAge (h : KeepsRatios T row samples) : KeepsRatios T row.increaseAge samples where
  onNodes := h.onNodes
  rawAccesses := h.rawAccesses
  computed hcomputed := absurd hcomputed Bool.false_ne_true
  of_notMem := h.of_notMem
  of_nil := h.of_nil

/-- A read does not change what has been counted. -/
theorem rawAccesses_withRatios : (row.withRatios T).rawAccesses = row.rawAccesses := by
  rw [PageRow.withRatios, computeRatios_eq]
  split_ifs <;> rfl

theorem share_withRatios : (row.withRatios T).share T node = row.share T node := by
  rw [share, share, totalAccesses, totalAccesses, rawAccesses_withRatios]

theorem withRatios (h : KeepsRatios T row samples)
    (hmax : ∀ node ∈ T.nodes, node ≤ T.maxNode) : KeepsRatios T (row.withRatios T) samples where
  onNodes := h.onNodes
  rawAccesses node := by rw [rawAccesses_withRatios, h.rawAccesses]
  computed _ node := by rw [share_withRatios, h.withRatios_ratios hmax]
  of_notMem node hnode := by
    rw [h.withRatios_ratios hmax, share, h.rawAccesses_of_notMem hnode, Nat.cast_zero, zero_div]
  of_nil hnil node := by
    have htotal := (h.totalAccesses_eq_zero_iff hmax).mpr hnil
    rw [h.withRatios_ratios hmax, share, htotal, Nat.cast_zero, div_zero]

/-- **One operation.** -/
theorem apply {op : Op ℚ} (h : KeepsRatios T row samples)
    (hmax : ∀ node ∈ T.nodes, node ≤ T.maxNode) (hop : OnNodes T [op]) :
    KeepsRatios T (row.apply settings T op) (sinceClear samples op) := by
  cases op with
  | addData sample agingFactor => exact h.addData (hop sample agingFactor List.mem_cons_self)
  | clear => exact clear
  | increaseAge => exact h.increaseAge
  | ratios => exact h.withRatios hmax

/-- What is kept after any operations. -/
theorem run {ops : List (Op ℚ)} (h : KeepsRatios T row samples)
    (hmax : ∀ node ∈ T.nodes, node ≤ T.maxNode) (hops : OnNodes T ops) :
    KeepsRatios T (Thanos.run (PageRow.apply settings T) row ops)
      (Thanos.run sinceClear samples ops) := by
  induction ops generalizing row samples with
  | nil => exact h
  | cons op ops ih =>
    have hop : OnNodes T [op] := fun sample agingFactor hmem =>
      hops sample agingFactor (List.mem_cons.mpr (.inl (List.mem_singleton.mp hmem)))
    exact ih (h.apply hmax hop) fun sample agingFactor hmem =>
      hops sample agingFactor (List.mem_cons_of_mem op hmem)

end KeepsRatios

/-- The shares add up to one. -/
theorem sum_share (h : row.totalAccesses T ≠ 0) :
    ((List.range (T.maxNode + 1)).map (row.share T)).sum = 1 := by
  have hsum : ((List.range (T.maxNode + 1)).map fun node => (row.rawAccesses node : ℚ)).sum =
      (row.totalAccesses T : ℚ) := by
    rw [totalAccesses, Nat.cast_list_sum, List.map_map]
    rfl
  have hne : (row.totalAccesses T : ℚ) ≠ 0 := Nat.cast_ne_zero.mpr h
  unfold share
  simp only [div_eq_mul_inv]
  rw [List.sum_map_mul_right, hsum, mul_inv_cancel₀ hne]

/-- The ratios of a row that are read and kept, for the samples since the last `clear`. -/
structure ShowsRatios (T : Topology) (row : PageRow ℚ) (samples : List MemorySample) : Prop where
  rawAccesses : ∀ node, row.rawAccesses node = resided samples node
  /-- `ratios()`. -/
  ratios : ∀ node, (row.withRatios T).ratios node = row.rawAccesses node / row.totalAccesses T
  /-- `ratio(node)`. -/
  ratio : ∀ node, row.ratio T node = row.rawAccesses node / row.totalAccesses T
  sum_eq_one : samples ≠ [] →
    ((List.range (T.maxNode + 1)).map (row.withRatios T).ratios).sum = 1
  of_nil : samples = [] → ∀ node, (row.withRatios T).ratios node = 0
  /-- What counts as computed is not out of date. -/
  computed : row.ratiosComputed = true →
    ∀ node, row.ratios node = row.rawAccesses node / row.totalAccesses T

theorem KeepsRatios.shows (h : KeepsRatios T row samples)
    (hmax : ∀ node ∈ T.nodes, node ≤ T.maxNode) : ShowsRatios T row samples where
  rawAccesses := h.rawAccesses
  ratios _ := h.withRatios_ratios hmax
  ratio _ := ratio_eq.trans (h.withRatios_ratios hmax)
  sum_eq_one hne := by
    have htotal : row.totalAccesses T ≠ 0 := mt (h.totalAccesses_eq_zero_iff hmax).mp hne
    have hratios : (row.withRatios T).ratios = row.share T := by
      funext node
      exact h.withRatios_ratios hmax
    rw [hratios, sum_share htotal]
  of_nil := (h.withRatios hmax).of_nil
  computed := h.computed

/-- **Ratios.** The nodes are among those that libnuma numbers. -/
theorem ratios_run (settings : Settings ℚ) (T : Topology) (lastPid : Pid) (lastNode : Node)
    (ops : List (Op ℚ)) (hmax : ∀ node ∈ T.nodes, node ≤ T.maxNode) (hops : OnNodes T ops) :
    ShowsRatios T (run (apply settings T) (new lastPid lastNode) ops) (run sinceClear [] ops) :=
  ((KeepsRatios.new lastPid lastNode).run hmax hops).shows hmax

/-- A page on node 1 is accessed, its ratios are read, and it moves to node 0. -/
theorem ratios_run_moved :
    ShowsRatios (Topology.regular 2 1 Nat.two_pos Nat.one_pos)
      (run (apply (Settings.default 1 64) (Topology.regular 2 1 Nat.two_pos Nat.one_pos)) (new 1 1)
        [.addData (.single 0 1 4096 200 1) 1, .ratios, .addData (.single 0 1 4096 200 0) 1])
      [.single 0 1 4096 200 1, .single 0 1 4096 200 0] := by
  refine ratios_run (Settings.default 1 64) _ 1 1 _ ?_ ?_
  · decide
  · intro sample agingFactor hmem
    simp only [List.mem_cons, Op.addData.injEq, reduceCtorEq, false_or, List.not_mem_nil,
      or_false] at hmem
    obtain ⟨rfl, -⟩ | ⟨rfl, -⟩ := hmem
    · decide
    · decide

end PageRow

end Thanos
