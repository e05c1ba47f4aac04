import Thanos.Library.Table
import Mathlib.Data.List.Perm.Basic

/-!
# Grouping by a key

Items are collected in a table, each in the row of its key, and the rows are then visited in
some order.

* **Rows** (`run_upsert`): the row of a key is what the items with this key make of a new row.
* **Orders** (`Enumerates`, `perm_flatMap_filter`): visited in any order, the groups are the
  items, each once.
-/

namespace Thanos

universe u v w

variable {κ : Type u} {ι : Type v} {α : Type w} [DecidableEq κ]

/-- The keys that have a row, each once. -/
structure Enumerates (t : κ → Option α) (order : List κ) : Prop where
  nodup : order.Nodup
  mem_iff : ∀ k, k ∈ order ↔ (t k).isSome = true

variable {new : α} {key : ι → κ} {f : ι → α → α} {items : List ι} {k : κ}

/-- **Rows.** -/
theorem run_upsert {t : κ → Option α} :
    run (fun t item => upsert new (key item) (f item) t) t items k =
      if (items.filter fun item => key item = k) = [] then t k
      else some (run (fun row item => f item row) ((t k).getD new)
        (items.filter fun item => key item = k)) := by
  induction items generalizing t with
  | nil => simp
  | cons item items ih =>
    rw [run_cons, ih]
    by_cases hk : key item = k
    · subst hk
      by_cases hrest : (items.filter fun i => key i = key item) = [] <;>
        simp [hrest, upsert, modifyAt_self]
    · rw [List.filter_cons_of_neg (by simpa using hk), upsert, modifyAt_of_ne (Ne.symm hk)]

/-- The keys with a row are those of the items. -/
theorem isSome_run_upsert :
    (run (fun t item => upsert new (key item) (f item) t) (fun _ => none) items k).isSome = true ↔
      ∃ item ∈ items, key item = k := by
  rw [run_upsert]
  split_ifs with h
  · simpa [List.filter_eq_nil_iff] using h
  · simpa [List.filter_eq_nil_iff] using h

/-- **Orders.** -/
theorem perm_flatMap_filter {keys : List κ} (hkeys : keys.Nodup)
    (hmem : ∀ item ∈ items, key item ∈ keys) :
    (keys.flatMap fun k => items.filter fun item => key item = k).Perm items := by
  induction keys generalizing items with
  | nil =>
    rw [List.eq_nil_iff_forall_not_mem.mpr fun item h => List.not_mem_nil (hmem item h)]
    exact .nil
  | cons k keys ih =>
    obtain ⟨hk, hkeys⟩ := List.nodup_cons.mp hkeys
    have hrest : ∀ item ∈ items.filter fun item => ¬ key item = k, key item ∈ keys := by
      intro item hitem
      obtain ⟨hitem, hne⟩ := List.mem_filter.mp hitem
      exact (List.mem_cons.mp (hmem item hitem)).resolve_left (by simpa using hne)
    -- the groups of the other keys are groups of what remains
    have hgroups : (keys.flatMap fun k' => items.filter fun item => key item = k') =
        keys.flatMap fun k' =>
          (items.filter fun item => ¬ key item = k).filter fun item => key item = k' := by
      refine List.flatMap_congr fun k' hk' => ?_
      rw [List.filter_filter]
      refine List.filter_congr fun item _ => ?_
      have hne : k' ≠ k := fun heq => hk (heq ▸ hk')
      by_cases hitem : key item = k'
      · simp [hitem, hne]
      · simp [hitem]
    rw [List.flatMap_cons, hgroups]
    refine ((ih hkeys hrest).append_left _).trans ?_
    simpa using List.filter_append_perm (fun item => decide (key item = k)) items

end Thanos
