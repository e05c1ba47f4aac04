import Thanos.Library.Run
import Mathlib.Logic.Function.Basic

/-!
# Tables whose rows are created on first use

A table is a function that has a row for some of the keys. `upsert` updates the row of a key and
creates it first if there is none, `insertNew` leaves a row that is there already.

* **Commutation** (`modifyAt_comm`, `upsert_comm`): updates commute if they do at the same key.
* **Projections** (`map_upsert`): a view of the rows is updated by the views of the updates.
* **First entries** (`run_insertNew`): a row that is there already stays.
-/

namespace Thanos

universe u v w

variable {κ : Type u} {α : Type v} {β : Type w} [DecidableEq κ]

/-- Updates the value at a key. -/
def modifyAt (k : κ) (f : α → α) (t : κ → α) : κ → α :=
  Function.update t k (f (t k))

/-- Updates the row of a key, which is `new` if there is none. -/
def upsert (new : α) (k : κ) (f : α → α) : (κ → Option α) → κ → Option α :=
  modifyAt k fun row => some (f (row.getD new))

/-- Inserts a row unless there is one. -/
def insertNew (t : κ → Option α) (e : κ × α) : κ → Option α :=
  if (t e.1).isSome then t else Function.update t e.1 (some e.2)

section ModifyAt

variable {k k' : κ} {f g : α → α} {t : κ → α}

theorem modifyAt_self : modifyAt k f t k = f (t k) :=
  Function.update_self ..

theorem modifyAt_of_ne (h : k' ≠ k) : modifyAt k f t k' = t k' :=
  Function.update_of_ne h ..

/-- **Commutation.** -/
theorem modifyAt_comm (h : k = k' → ∀ a, f (g a) = g (f a)) :
    modifyAt k f (modifyAt k' g t) = modifyAt k' g (modifyAt k f t) := by
  funext j
  by_cases hk : k = k'
  · subst hk
    by_cases hj : j = k
    · subst hj
      simp [modifyAt_self, h rfl]
    · simp only [modifyAt_of_ne hj]
  · -- each of the two keys is left alone by the update of the other
    by_cases hj : j = k
    · subst hj
      rw [modifyAt_self, modifyAt_of_ne hk, modifyAt_of_ne hk, modifyAt_self]
    · by_cases hj' : j = k'
      · subst hj'
        rw [modifyAt_of_ne hj, modifyAt_self, modifyAt_self, modifyAt_of_ne hj]
      · simp only [modifyAt_of_ne hj, modifyAt_of_ne hj']

end ModifyAt

variable {new : α} {k k' : κ} {f g : α → α} {t : κ → Option α}

/-- **Commutation** of updates that create rows. -/
theorem upsert_comm (h : k = k' → ∀ a, f (g a) = g (f a)) :
    upsert new k f (upsert new k' g t) = upsert new k' g (upsert new k f t) :=
  modifyAt_comm fun hk row => by rw [Option.getD_some, Option.getD_some, h hk]

/-- **Projections.** -/
theorem map_upsert {view : α → β} {f' : β → β} (h : ∀ a, view (f a) = f' (view a)) :
    (fun j => (upsert new k f t j).map view) =
      upsert (view new) k f' fun j => (t j).map view := by
  funext j
  by_cases hj : j = k
  · subst hj
    rw [upsert, upsert, modifyAt_self, modifyAt_self, Option.map_some, h]
    cases t j <;> rfl
  · rw [upsert, upsert, modifyAt_of_ne hj, modifyAt_of_ne hj]

/-- What is determined by one view of a row is determined by this view of an optional row. -/
theorem map_eq_map_of_congr {γ : Type*} {view : α → β} {view' : α → γ} {row row' : Option α}
    (hcongr : ∀ a a', view a = view a' → view' a = view' a') (h : row.map view = row'.map view) :
    row.map view' = row'.map view' := by
  cases row with
  | none => cases row' with
    | none => rfl
    | some a' => simp at h
  | some a => cases row' with
    | none => simp at h
    | some a' => exact congrArg some (hcongr a a' (Option.some.inj h))

/-- Of several entries for a key the first one is inserted, unless there is a row already. -/
theorem run_insertNew_find? {entries : List (κ × α)} :
    run insertNew t entries k =
      (t k).or ((entries.find? fun e => e.1 = k).map Prod.snd) := by
  induction entries generalizing t with
  | nil => simp
  | cons e entries ih =>
    rw [run_cons, ih, insertNew, List.find?_cons]
    by_cases hk : e.1 = k
    · cases ht : t k <;> simp [hk, ht]
    · cases ht : t e.1 <;> simp [hk, Ne.symm hk]

/-- **First entries.** -/
theorem run_insertNew {keys : List κ} {row : κ → α} :
    run insertNew t (keys.map fun k => (k, row k)) k =
      (t k).or (if k ∈ keys then some (row k) else none) := by
  rw [run_insertNew_find?, List.find?_map, Option.map_map]
  congr 1
  split_ifs with hk
  · have hsome : (keys.find? fun k' => decide (k' = k)).isSome = true :=
      List.find?_isSome.mpr ⟨k, hk, decide_eq_true rfl⟩
    obtain ⟨k', hk'⟩ := Option.isSome_iff_exists.mp hsome
    obtain rfl : k' = k := by simpa using List.find?_some hk'
    exact congrArg (Option.map row) hk'
  · refine Option.map_eq_none_iff.mpr (List.find?_eq_none.mpr fun k' hk' => ?_)
    have hne : k' ≠ k := fun heq => hk (heq ▸ hk')
    simpa using hne

end Thanos
