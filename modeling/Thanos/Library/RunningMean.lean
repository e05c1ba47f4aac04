import Mathlib.Data.Rat.Floor
import Mathlib.Tactic.FieldSimp
import Mathlib.Tactic.Positivity
import Thanos.Library.Run

/-!
# Running means

A running mean keeps the average of the values it has taken in, and their number. Every value is
added to the product of the two, and the quotient by the new number is rounded down, so that what
is lost in one step is missing from all steps after it.

* **Deficit** (`mul_average_le_sum`): the average is never above the mean of the values.
* **Drift** (`staysClose_iff`): the average stays within less than one of the mean exactly when
  the remainders of the sums by the numbers of values never decrease.
* **Bounds** (`Bounded.take`): an average of positive values is positive, and its product with
  their number is not above their sum.
* **Views** (`staysClose_view_iff`): the same for a machine of which a part behaves like a running
  mean, over those of its operations that concern it.
-/

namespace Thanos

universe u v

/-- The average of a number of values. -/
structure RunningMean where
  average : ℤ
  count : ℤ

/-- The mean of some values. -/
def exactMean (values : List ℤ) : ℚ :=
  (values.sum : ℚ) / (values.length : ℚ)

/-- An average differs from the mean of some values, if there are any, by less than one. -/
def Close (values : List ℤ) (average : ℤ) : Prop :=
  values ≠ [] → |exactMean values - average| < 1

/-- The remainders of the sums of the first values by their numbers never decrease. -/
def RemaindersAscend (values : List ℤ) : Prop :=
  ∀ pre value, pre ++ [value] <+: values →
    pre.sum % (pre.length : ℤ) ≤ (pre ++ [value]).sum % ((pre ++ [value]).length : ℤ)

instance (values : List ℤ) : Decidable (RemaindersAscend values) :=
  decidable_of_iff (∀ pre ∈ values.inits, ∀ value ∈ values, pre ++ [value] <+: values →
      pre.sum % (pre.length : ℤ) ≤ (pre ++ [value]).sum % ((pre ++ [value]).length : ℤ)) <| by
    constructor
    · intro h pre value hpre
      exact h pre ((List.mem_inits _ _).mpr ((List.prefix_append pre [value]).trans hpre)) value
        (hpre.subset (by simp)) hpre
    · exact fun h pre _ value _ hpre => h pre value hpre

namespace RunningMean

/-- One more value is taken in. -/
def take (m : RunningMean) (value : ℤ) : RunningMean :=
  ⟨(m.count * m.average + value) / (m.count + 1), m.count + 1⟩

variable {m : RunningMean} {values : List ℤ} {value average : ℤ}

theorem count_run_take : (run take m values).count = m.count + values.length := by
  induction values generalizing m with
  | nil => simp
  | cons value values ih =>
    rw [run_cons, ih, take, List.length_cons]
    push_cast
    ring

theorem average_run_concat (hm : m.count = 0) :
    (run take m (values ++ [value])).average =
      (values.length * (run take m values).average + value) / (values.length + 1) := by
  rw [run_concat, take, count_run_take, hm, zero_add]

/-- **Deficit.** -/
theorem mul_average_le_sum (hm : m.count = 0) :
    values.length * (run take m values).average ≤ values.sum := by
  induction values using List.reverseRecOn with
  | nil => simp
  | append_singleton values value ih =>
    have hle := Int.ediv_mul_le (values.length * (run take m values).average + value)
      (b := values.length + 1) (by positivity)
    rw [average_run_concat hm, List.sum_append, List.sum_singleton, List.length_append,
      List.length_singleton, mul_comm]
    push_cast
    linarith

/-- An average that is not above the mean is close to it if it is the mean rounded down. -/
theorem close_iff (hle : values.length * average ≤ values.sum) :
    Close values average ↔ (values ≠ [] → average = values.sum / values.length) := by
  refine forall_congr' fun hne => ?_
  have hpos : (0 : ℤ) < values.length := by
    exact_mod_cast List.length_pos_iff.mpr hne
  have hmean : 0 ≤ exactMean values - average := by
    have hposQ : (0 : ℚ) < values.length := by exact_mod_cast hpos
    rw [exactMean, sub_nonneg, le_div_iff₀ hposQ, mul_comm]
    exact_mod_cast hle
  have habove : exactMean values - average < 1 ↔ values.sum < (average + 1) * values.length := by
    have hposQ : (0 : ℚ) < values.length := by exact_mod_cast hpos
    rw [exactMean, sub_lt_iff_lt_add', div_lt_iff₀ hposQ]
    exact_mod_cast Iff.rfl
  rw [abs_of_nonneg hmean, habove]
  constructor
  · intro hlt
    refine le_antisymm ?_ ?_
    · rw [Int.le_ediv_iff_mul_le hpos, mul_comm]
      exact hle
    · exact Int.lt_add_one_iff.mp ((Int.ediv_lt_iff_lt_mul hpos).mpr hlt)
  · rintro rfl
    exact Int.lt_ediv_add_one_mul_self _ hpos

/-- Rounding down is not affected by what is missing exactly when the remainder covers it. -/
theorem ediv_sub_eq_iff {sum missing count : ℤ} (hcount : 0 < count) (hmissing : 0 ≤ missing) :
    (sum - missing) / count = sum / count ↔ missing ≤ sum % count := by
  have hsplit : sum % count + sum / count * count = sum := Int.emod_add_ediv_mul sum count
  have hlt := Int.emod_lt_of_pos sum hcount
  rw [Int.ediv_eq_iff_of_pos hcount]
  constructor
  · rintro ⟨hle, -⟩
    linarith
  · intro hle
    constructor <;> linarith

/-- The average is the mean rounded down. -/
def Exact (m : RunningMean) (values : List ℤ) : Prop :=
  values ≠ [] → (run take m values).average = values.sum / values.length

/-- An exact average stays exact exactly when the remainder does not decrease. -/
theorem exact_concat_iff (hm : m.count = 0) (h : m.Exact values) :
    m.Exact (values ++ [value]) ↔
      values.sum % (values.length : ℤ) ≤
        (values ++ [value]).sum % ((values ++ [value]).length : ℤ) := by
  have hlength : ((values ++ [value]).length : ℤ) = values.length + 1 := by simp
  have hsum : (values ++ [value]).sum = values.sum + value := by simp
  have hproduct : values.length * (run take m values).average =
      values.sum - values.sum % (values.length : ℤ) := by
    by_cases hne : values = []
    · simp [hne]
    · rw [h hne]
      have hsplit := Int.emod_add_mul_ediv values.sum values.length
      linarith
  have hrest : (values.length : ℤ) * (run take m values).average + value =
      (values ++ [value]).sum - values.sum % (values.length : ℤ) := by
    rw [hproduct, hsum]
    ring
  have hnonneg : 0 ≤ values.sum % (values.length : ℤ) := by
    by_cases hne : values = []
    · simp [hne]
    · exact Int.emod_nonneg _ (by simpa using hne)
  rw [Exact, average_run_concat hm, hrest, hlength, forall_prop_of_true (by simp)]
  exact ediv_sub_eq_iff (by positivity) hnonneg

/-- **Drift.** -/
theorem staysClose_iff (hm : m.count = 0) :
    (∀ pre, pre <+: values → Close pre (run take m pre).average) ↔ RemaindersAscend values := by
  have hclose : ∀ pre, Close pre (run take m pre).average ↔ m.Exact pre :=
    fun pre => close_iff (mul_average_le_sum hm)
  simp only [hclose]
  constructor
  · intro h pre value hpre
    have hbefore : m.Exact pre := h pre ((List.prefix_append pre [value]).trans hpre)
    exact (exact_concat_iff hm hbefore).mp (h (pre ++ [value]) hpre)
  · intro h pre
    induction pre using List.reverseRecOn with
    | nil => exact fun _ hne => absurd rfl hne
    | append_singleton pre value ih =>
      intro hpre
      have hbefore : m.Exact pre := ih ((List.prefix_append pre [value]).trans hpre)
      exact (exact_concat_iff hm hbefore).mpr (h pre value hpre)

/-! ### Bounds -/

/-- An average of positive values that add up to some bound at most. -/
structure Bounded (bound : ℤ) (m : RunningMean) : Prop where
  count_nonneg : 0 ≤ m.count
  count_le : m.count ≤ m.count * m.average
  le_bound : m.count * m.average ≤ bound

theorem Bounded.mono {bound bound' : ℤ} (h : Bounded bound m) (hle : bound ≤ bound') :
    Bounded bound' m :=
  ⟨h.count_nonneg, h.count_le, h.le_bound.trans hle⟩

theorem bounded_of_count_eq_zero {bound : ℤ} (hcount : m.count = 0) (hbound : 0 ≤ bound) :
    Bounded bound m := by
  refine ⟨hcount.ge, ?_, ?_⟩ <;> simp [hcount, hbound]

/-- An average of positive values is positive. -/
theorem Bounded.one_le_average {bound : ℤ} (h : Bounded bound m) (hcount : 0 < m.count) :
    1 ≤ m.average := by
  have hle := h.count_le
  by_contra hlt
  have hnonpos : m.count * m.average ≤ 0 := by
    refine mul_nonpos_of_nonneg_of_nonpos hcount.le ?_
    omega
  omega

/-- An average of some positive values is not above their sum. -/
theorem Bounded.average_le {bound : ℤ} (h : Bounded bound m) (hcount : 0 < m.count) :
    m.average ≤ bound := by
  have hone := h.one_le_average hcount
  have hle : m.average ≤ m.count * m.average := le_mul_of_one_le_left (by omega) hcount
  exact hle.trans h.le_bound

/-- **Bounds.** -/
theorem Bounded.take {bound : ℤ} (h : Bounded bound m) (hvalue : 1 ≤ value) :
    Bounded (bound + value) (m.take value) := by
  have hpos : 0 < m.count + 1 := by
    have := h.count_nonneg
    omega
  have hone : 1 ≤ (m.count * m.average + value) / (m.count + 1) := by
    rw [Int.le_ediv_iff_mul_le hpos, one_mul]
    exact add_le_add h.count_le hvalue
  refine ⟨hpos.le, le_mul_of_one_le_right hpos.le hone, ?_⟩
  calc (m.count + 1) * ((m.count * m.average + value) / (m.count + 1))
      ≤ m.count * m.average + value := Int.mul_ediv_self_le hpos.ne'
    _ ≤ bound + value := by
      have := h.le_bound
      omega

/-! ### Views -/

section View

variable {σ : Type u} {ι : Type v} {step : σ → ι → σ} {s : σ} {ops : List ι}

/-- A prefix of the values that some operations have is that of a prefix of the operations. -/
theorem exists_prefix_of_filterMap {value : ι → Option ℤ} {pre : List ℤ}
    (h : pre <+: ops.filterMap value) : ∃ pre', pre' <+: ops ∧ pre'.filterMap value = pre := by
  induction ops generalizing pre with
  | nil => exact ⟨[], List.prefix_refl _, (List.prefix_nil.mp h).symm⟩
  | cons op ops ih =>
    rcases hop : value op with _ | v
    · rw [List.filterMap_cons_none hop] at h
      obtain ⟨pre', hpre', heq⟩ := ih h
      exact ⟨op :: pre', List.cons_prefix_cons.mpr ⟨rfl, hpre'⟩, by
        rw [List.filterMap_cons_none hop, heq]⟩
    · rw [List.filterMap_cons_some hop] at h
      cases pre with
      | nil => exact ⟨[], List.nil_prefix, rfl⟩
      | cons w pre =>
        obtain ⟨rfl, hrest⟩ := List.cons_prefix_cons.mp h
        obtain ⟨pre', hpre', heq⟩ := ih hrest
        exact ⟨op :: pre', List.cons_prefix_cons.mpr ⟨rfl, hpre'⟩, by
          rw [List.filterMap_cons_some hop, heq]⟩

/-- Operations that have no value for the running mean do not change it. -/
theorem run_filterMap {value : ι → Option ℤ} :
    run (fun m op => (value op).elim m (take m)) m ops = run take m (ops.filterMap value) := by
  induction ops generalizing m with
  | nil => rfl
  | cons op ops ih =>
    rcases hop : value op with _ | v
    · rw [run_cons, ih, List.filterMap_cons_none hop, hop, Option.elim_none]
    · rw [run_cons, ih, List.filterMap_cons_some hop, hop, Option.elim_some, run_cons]

/-- **Views.** -/
theorem staysClose_view_iff (view : σ → RunningMean) (value : ι → Option ℤ) {I : σ → Prop}
    (hs : I s) (hI : ∀ t, ∀ op ∈ ops, I t → I (step t op))
    (hview : ∀ t, ∀ op ∈ ops, I t → view (step t op) = (value op).elim (view t) (take (view t)))
    (hcount : (view s).count = 0) :
    (∀ pre, pre <+: ops → Close (pre.filterMap value) (view (run step s pre)).average) ↔
      RemaindersAscend (ops.filterMap value) := by
  have hrun : ∀ pre, pre <+: ops →
      view (run step s pre) = run take (view s) (pre.filterMap value) := by
    intro pre hpre
    rw [← run_filterMap]
    exact run_simulates view hs (fun t op hop => hI t op (hpre.subset hop))
      fun t op hop => hview t op (hpre.subset hop)
  rw [← staysClose_iff hcount]
  constructor
  · intro h pre hpre
    obtain ⟨pre', hpre', rfl⟩ := exists_prefix_of_filterMap hpre
    rw [← hrun pre' hpre']
    exact h pre' hpre'
  · intro h pre hpre
    rw [hrun pre hpre]
    exact h _ (hpre.filterMap value)

end View

end RunningMean

end Thanos
