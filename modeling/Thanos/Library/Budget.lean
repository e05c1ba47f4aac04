import Mathlib.Algebra.Order.Group.Multiset
import Mathlib.Algebra.Ring.Nat
import Mathlib.Algebra.BigOperators.Group.Multiset.Basic
import Thanos.Library.Run

/-!
# Budgets

Every step of a machine may earn something and spend something, and a potential says how much is
left. What is spent in a run has been earned in it, or was there at the start.

* **Runs** (`run_budget`): a step that keeps its balance does so in runs.
* **Keys** (`mul_length_le`): budgets that are kept for each key apart add up.
-/

namespace Thanos

universe u v w

variable {σ : Type u} {ι : Type v} {step : σ → ι → σ} {s : σ} {ops : List ι}

/-- **Runs.** -/
theorem run_budget (potential : σ → ℕ) (earned spent : σ × ι → ℕ)
    (h : ∀ t op, (t, op) ∈ trace step s ops →
      potential (step t op) + spent (t, op) ≤ potential t + earned (t, op)) :
    potential (run step s ops) + ((trace step s ops).map spent).sum ≤
      potential s + ((trace step s ops).map earned).sum := by
  induction ops generalizing s with
  | nil => exact le_rfl
  | cons op ops ih =>
    have hfirst := h s op List.mem_cons_self
    have hrest := ih fun t op' hop' => h t op' (List.mem_cons_of_mem (s, op) hop')
    rw [run_cons, trace, List.map_cons, List.map_cons, List.sum_cons, List.sum_cons]
    omega

/-- What is earned by the operations, whatever the states are. -/
theorem sum_trace (earned : ι → ℕ) :
    ((trace step s ops).map fun e => earned e.2).sum = (ops.map earned).sum := by
  induction ops generalizing s with
  | nil => rfl
  | cons op ops ih => rw [trace, List.map_cons, List.map_cons, List.sum_cons, List.sum_cons, ih]

/-- **Keys.** If every key costs some amount whenever it occurs in the first list, and has earned
it in the second one, the first list is shorter by that factor. -/
theorem mul_length_le {κ : Type w} [DecidableEq κ] {cost : ℕ} {spent earned : List κ}
    (h : ∀ k, cost * spent.count k ≤ earned.count k) :
    cost * spent.length ≤ earned.length := by
  have hle : cost • (spent : Multiset κ) ≤ (earned : Multiset κ) := by
    refine Multiset.le_iff_count.mpr fun k => ?_
    rw [Multiset.count_nsmul, Multiset.coe_count, Multiset.coe_count]
    exact h k
  have hcard := Multiset.card_le_card hle
  rwa [Multiset.card_nsmul, Multiset.coe_card, Multiset.coe_card] at hcard

end Thanos
