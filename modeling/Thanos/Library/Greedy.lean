import Mathlib.Data.List.Infix

/-!
# Greedy choices

The items of an order are visited one after another. An item is picked if it is wanted and none
of those picked before covers it; what an item covers may depend on those picked before it.

* **Uniqueness** (`Picks.unique`): an order determines what is picked.
* **Walks** (`picks_of_walk`): a program picks the items if each of its steps decides by what is
  wanted and covered.
-/

namespace Thanos

universe u v

variable {ι : Type u}

/-- An item is covered by one of those picked. -/
def Covered (covers : List ι → ι → ι → Prop) (picked : List ι) (i : ι) : Prop :=
  ∃ pre j, pre ++ [j] <+: picked ∧ covers pre j i

/-- What is picked of the items of an order. -/
inductive Picks (wanted : ι → Prop) (covers : List ι → ι → ι → Prop) : List ι → List ι → Prop
  | nil : Picks wanted covers [] []
  | pick {order picked : List ι} {i : ι} (h : Picks wanted covers order picked) (hi : wanted i)
      (hfresh : ¬ Covered covers picked i) :
      Picks wanted covers (order ++ [i]) (picked ++ [i])
  | pass {order picked : List ι} {i : ι} (h : Picks wanted covers order picked)
      (hi : ¬ wanted i ∨ Covered covers picked i) :
      Picks wanted covers (order ++ [i]) picked

variable {wanted : ι → Prop} {covers : List ι → ι → ι → Prop} {order picked picked' : List ι}
  {i j : ι}

@[simp]
theorem not_covered_nil : ¬ Covered covers [] i := by
  rintro ⟨pre, j, hpre, -⟩
  simp at hpre

/-- The item picked last covers what it covers by itself. -/
theorem covered_concat :
    Covered covers (picked ++ [j]) i ↔ Covered covers picked i ∨ covers picked j i := by
  constructor
  · rintro ⟨pre, k, hpre, hcovers⟩
    obtain heq | hpre := List.prefix_concat_iff.mp hpre
    · obtain ⟨rfl, hk⟩ := List.append_inj' heq rfl
      obtain rfl := List.singleton_inj.mp hk
      exact .inr hcovers
    · exact .inl ⟨pre, k, hpre, hcovers⟩
  · rintro (⟨pre, k, hpre, hcovers⟩ | hcovers)
    · exact ⟨pre, k, hpre.trans (List.prefix_append picked [j]), hcovers⟩
    · exact ⟨picked, j, List.prefix_refl _, hcovers⟩

theorem Picks.sublist (h : Picks wanted covers order picked) : picked.Sublist order := by
  induction h with
  | nil => exact .refl _
  | pick h hi hfresh ih => exact ih.append (.refl _)
  | @pass order picked i h hi ih => exact ih.trans (List.sublist_append_left order [i])

/-- **Uniqueness.** -/
theorem Picks.unique (h : Picks wanted covers order picked)
    (h' : Picks wanted covers order picked') : picked = picked' := by
  induction h generalizing picked' with
  | nil =>
    generalize heq : ([] : List ι) = order at h'
    cases h' with
    | nil => rfl
    | pick h' hi' hfresh' => simp at heq
    | pass h' hi' => simp at heq
  | @pick order picked i h hi hfresh ih =>
    generalize heq : order ++ [i] = order' at h'
    cases h' with
    | nil => simp at heq
    | pick h' hi' hfresh' =>
      obtain ⟨rfl, hitem⟩ := List.append_inj' heq rfl
      obtain rfl := List.singleton_inj.mp hitem
      rw [ih h']
    | pass h' hi' =>
      obtain ⟨rfl, hitem⟩ := List.append_inj' heq rfl
      obtain rfl := List.singleton_inj.mp hitem
      obtain rfl := ih h'
      exact absurd hi' (by simp [hi, hfresh])
  | @pass order picked i h hi ih =>
    generalize heq : order ++ [i] = order' at h'
    cases h' with
    | nil => simp at heq
    | pick h' hi' hfresh' =>
      obtain ⟨rfl, hitem⟩ := List.append_inj' heq rfl
      obtain rfl := List.singleton_inj.mp hitem
      obtain rfl := ih h'
      exact absurd hi (by simp [hi', hfresh'])
    | pass h' hi' =>
      obtain ⟨rfl, -⟩ := List.append_inj' heq rfl
      exact ih h'

/-- **Walks.** -/
theorem picks_of_walk {σ : Type v} {step : σ → ι → σ} {s : σ} {I : List ι → List ι → σ → Prop}
    (hs : I [] [] s) (horder : order.Nodup)
    (hstep : ∀ done picked t i, i ∉ done → I done picked t →
      (wanted i ∧ ¬ Covered covers picked i ∧ I (done ++ [i]) (picked ++ [i]) (step t i)) ∨
        (¬ wanted i ∨ Covered covers picked i) ∧ I (done ++ [i]) picked (step t i)) :
    ∃ picked, Picks wanted covers order picked ∧ I order picked (order.foldl step s) := by
  induction order using List.reverseRecOn with
  | nil => exact ⟨[], .nil, hs⟩
  | append_singleton order i ih =>
    obtain ⟨hnodup, -, hapart⟩ := List.nodup_append.mp horder
    have hnew : i ∉ order := fun hi => hapart i hi i (List.mem_singleton.mpr rfl) rfl
    obtain ⟨picked, hpicks, hI⟩ := ih hnodup
    rw [List.foldl_append, List.foldl_cons, List.foldl_nil]
    obtain ⟨hwanted, hfresh, hnext⟩ | ⟨hpassed, hnext⟩ := hstep order picked _ i hnew hI
    · exact ⟨_, hpicks.pick hwanted hfresh, hnext⟩
    · exact ⟨_, hpicks.pass hpassed, hnext⟩

end Thanos
