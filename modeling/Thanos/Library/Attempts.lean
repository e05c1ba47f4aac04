import Mathlib.Data.List.Basic

/-!
# Attempts

`attemptAll f s items` makes one attempt for each of several items and stops at the first one
that fails. The state it returns is the one in which it stopped, so that what is proved of it
for whatever outcomes holds between any two attempts as well.

* **Outcomes** (`attemptAll_cases`): either all attempts were made, or one of them failed after
  those before it were made. What holds of the items that are done is carried along.
* **Processing** (`attemptAll_processed`): the same for all items, if no attempt fails.
* **Invariants** (`attemptAll_invariant`): what every attempt preserves, failed ones included.
-/

namespace Thanos

universe u v

variable {σ : Type u} {ι : Type v} (f : σ → ι → Bool × σ)

/-- Attempts until one fails. -/
def attemptAll : σ → List ι → Bool × σ
  | s, [] => (true, s)
  | s, item :: items =>
    match f s item with
    | (false, s) => (false, s)
    | (true, s) => attemptAll s items

variable {f} {s : σ} {item : ι} {items : List ι}

theorem attemptAll_cons_of_false (h : (f s item).1 = false) :
    attemptAll f s (item :: items) = (false, (f s item).2) := by
  rw [attemptAll]
  rcases hf : f s item with ⟨ok, s'⟩
  obtain rfl : ok = false := by rw [← h, hf]
  rfl

theorem attemptAll_cons_of_true (h : (f s item).1 = true) :
    attemptAll f s (item :: items) = attemptAll f (f s item).2 items := by
  rw [attemptAll]
  rcases hf : f s item with ⟨ok, s'⟩
  obtain rfl : ok = true := by rw [← h, hf]
  rfl

/-- **Outcomes**, after some items are done. -/
theorem attemptAll_cases_of_done {P : List ι → σ → Prop} (done : List ι) (hs : P done s)
    (h : ∀ done t, ∀ item ∈ items, P done t → (f t item).1 = true →
      P (done ++ [item]) (f t item).2) :
    (∃ s', attemptAll f s items = (true, s') ∧ P (done ++ items) s') ∨
      ∃ pre item rest t, items = pre ++ item :: rest ∧ P (done ++ pre) t ∧
        (f t item).1 = false ∧ attemptAll f s items = (false, (f t item).2) := by
  induction items generalizing s done with
  | nil => exact .inl ⟨s, rfl, by rwa [List.append_nil]⟩
  | cons item items ih =>
    cases hf : (f s item).1 with
    | false =>
      exact .inr ⟨[], item, items, s, rfl, by rwa [List.append_nil], hf,
        attemptAll_cons_of_false hf⟩
    | true =>
      have hnext : P (done ++ [item]) (f s item).2 := h done s item List.mem_cons_self hs hf
      have hrest := ih (done ++ [item]) hnext fun done t item' hitem' =>
        h done t item' (List.mem_cons_of_mem _ hitem')
      rw [attemptAll_cons_of_true hf]
      simp only [List.append_assoc, List.singleton_append] at hrest
      obtain hall | ⟨pre, item', rest, t, rfl, hpre, hfail, heq⟩ := hrest
      · exact .inl hall
      · exact .inr ⟨item :: pre, item', rest, t, rfl, hpre, hfail, heq⟩

/-- **Outcomes.** -/
theorem attemptAll_cases (f : σ → ι → Bool × σ) (items : List ι) {P : List ι → σ → Prop}
    (hs : P [] s)
    (h : ∀ done t, ∀ item ∈ items, P done t → (f t item).1 = true →
      P (done ++ [item]) (f t item).2) :
    (∃ s', attemptAll f s items = (true, s') ∧ P items s') ∨
      ∃ pre item rest t, items = pre ++ item :: rest ∧ P pre t ∧
        (f t item).1 = false ∧ attemptAll f s items = (false, (f t item).2) :=
  attemptAll_cases_of_done [] hs h

/-- **Processing.** If no attempt fails, all items are done, one after another. -/
theorem attemptAll_processed {P : List ι → σ → Prop} (hs : P [] s)
    (h : ∀ done item rest t, items = done ++ item :: rest → P done t → (f t item).1 = true →
      P (done ++ [item]) (f t item).2)
    (hall : (attemptAll f s items).1 = true) : P items (attemptAll f s items).2 := by
  have hloop : ∀ rest done t, items = done ++ rest → P done t →
      (attemptAll f t rest).1 = true → P items (attemptAll f t rest).2 := by
    intro rest
    induction rest with
    | nil =>
      rintro done t rfl ht -
      rwa [List.append_nil]
    | cons item rest ih =>
      intro done t hitems ht hall
      cases hf : (f t item).1 with
      | false =>
        rw [attemptAll_cons_of_false hf] at hall
        cases hall
      | true =>
        rw [attemptAll_cons_of_true hf] at hall ⊢
        have hsplit : items = (done ++ [item]) ++ rest := by
          rw [hitems, List.append_assoc, List.singleton_append]
        exact ih (done ++ [item]) _ hsplit (h done item rest t hitems ht hf) hall
  exact hloop items [] s rfl hs hall

/-- **Invariants.** -/
theorem attemptAll_invariant {I : σ → Prop} (hs : I s)
    (h : ∀ t, ∀ item ∈ items, I t → I (f t item).2) : I (attemptAll f s items).2 := by
  obtain ⟨s', heq, hI⟩ | ⟨pre, item, rest, t, rfl, hI, -, heq⟩ :=
    attemptAll_cases f items (P := fun _ t => I t) hs fun _ t item hitem ht _ => h t item hitem ht
  · rwa [heq]
  · rw [heq]
    exact h t item (by simp) hI

end Thanos
