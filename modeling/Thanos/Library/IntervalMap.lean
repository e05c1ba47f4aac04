import Mathlib.Data.List.Basic
import Mathlib.Data.List.TakeWhile
import Mathlib.Order.Lattice

/-!
# Interval maps

An `IntervalMap` is a finite map keyed by the starts of half-open intervals, kept as the list of
its values in increasing order. That the intervals are non-empty and disjoint is part of the
structure, so at most one of them covers a point (`eq_of_covers`).

`before m a` and `after m a` are the two sides of the position at which a search for `a` by key
arrives: the interval that covers `a` is the first one after it, if it starts at `a`, or else the
last one before it (`head?_after_of_covers`, `getLast?_before_of_covers`).
-/

namespace Thanos

universe u v

/-- A map from keys to non-empty, disjoint half-open intervals, in increasing order. -/
structure IntervalMap {ρ : Type u} {α : Type v} [LinearOrder α] (start stop : ρ → α) where
  /-- The intervals in increasing order. -/
  toList : List ρ
  /-- No interval is empty. -/
  nonempty : ∀ r ∈ toList, start r < stop r
  /-- Every interval ends before the next one starts. -/
  disjoint : toList.Pairwise fun r r' => stop r ≤ start r'

namespace IntervalMap

variable {ρ : Type u} {α : Type v} [LinearOrder α] {start stop : ρ → α}

instance : Membership ρ (IntervalMap start stop) :=
  ⟨fun m r => r ∈ m.toList⟩

instance : EmptyCollection (IntervalMap start stop) :=
  ⟨⟨[], fun _ hr => absurd hr List.not_mem_nil, List.Pairwise.nil⟩⟩

/-- The interval of `r` covers a point. -/
def Covers (start stop : ρ → α) (r : ρ) (a : α) : Prop :=
  start r ≤ a ∧ a < stop r

instance (r : ρ) (a : α) : Decidable (Covers start stop r a) :=
  inferInstanceAs (Decidable (_ ∧ _))

/-- The interval at a key. -/
def find? (m : IntervalMap start stop) (key : α) : Option ρ :=
  m.toList.find? fun r => start r = key

/-- The intervals that start before a point. -/
def before (m : IntervalMap start stop) (a : α) : List ρ :=
  m.toList.takeWhile fun r => start r < a

/-- The intervals from the lower bound of a point on. -/
def after (m : IntervalMap start stop) (a : α) : List ρ :=
  m.toList.dropWhile fun r => start r < a

variable {m : IntervalMap start stop} {r r' : ρ} {a : α}

theorem before_append_after : m.before a ++ m.after a = m.toList :=
  List.takeWhile_append_dropWhile

theorem lt_of_mem_before (h : r ∈ m.before a) : start r < a := by
  simpa using List.mem_takeWhile_imp h

theorem mem_of_mem_before (h : r ∈ m.before a) : r ∈ m :=
  (List.takeWhile_prefix _).subset h

theorem mem_of_mem_after (h : r ∈ m.after a) : r ∈ m :=
  (List.dropWhile_suffix _).subset h

/-- The starts are increasing. -/
theorem start_lt : m.toList.Pairwise fun r r' => start r < start r' :=
  m.disjoint.imp_of_mem fun hr _ hle => lt_of_lt_of_le (m.nonempty _ hr) hle

theorem le_of_mem_after (h : r ∈ m.after a) : a ≤ start r := by
  have hhead := List.head?_dropWhile_not (fun r => decide (start r < a)) m.toList
  have hsorted : (m.after a).Pairwise fun r r' => start r < start r' :=
    m.start_lt.sublist (List.dropWhile_sublist _)
  rw [← after] at hhead
  cases hafter : m.after a with
  | nil => simp [hafter] at h
  | cons r' rest =>
    rw [hafter] at h hhead hsorted
    have hfirst : a ≤ start r' := by simpa using hhead
    -- the others start later
    obtain rfl | hrest := List.mem_cons.mp h
    · exact hfirst
    · exact le_trans hfirst (List.rel_of_pairwise_cons hsorted hrest).le

theorem mem_before_or_after (h : r ∈ m) : r ∈ m.before a ∨ r ∈ m.after a := by
  rw [← List.mem_append, before_append_after]
  exact h

/-- Of two different intervals one ends before the other starts. -/
theorem eq_or_stop_le (h : r ∈ m) (h' : r' ∈ m) :
    r = r' ∨ stop r ≤ start r' ∨ stop r' ≤ start r := by
  refine List.Pairwise.forall_of_forall_of_flip
    (R := fun r r' => r = r' ∨ stop r ≤ start r' ∨ stop r' ≤ start r)
    (fun r _ => .inl rfl) (m.disjoint.imp fun hle => .inr (.inl hle))
    (m.disjoint.imp fun hle => .inr (.inr hle)) h h'

/-- At most one interval covers a point. -/
theorem eq_of_covers (h : r ∈ m) (h' : r' ∈ m) (hr : Covers start stop r a)
    (hr' : Covers start stop r' a) : r = r' := by
  obtain heq | hle | hle := eq_or_stop_le h h'
  · exact heq
  · exact absurd (lt_of_lt_of_le hr.2 (hle.trans hr'.1)) (lt_irrefl a)
  · exact absurd (lt_of_lt_of_le hr'.2 (hle.trans hr.1)) (lt_irrefl a)

/-- The key of an interval is its start. -/
theorem find?_eq_some_iff {key : α} : m.find? key = some r ↔ r ∈ m ∧ start r = key := by
  constructor
  · intro h
    exact ⟨List.mem_of_find?_eq_some h, by simpa using List.find?_some h⟩
  · rintro ⟨hr, rfl⟩
    obtain ⟨r', hfound⟩ : ∃ r', m.find? (start r) = some r' :=
      Option.isSome_iff_exists.mp (List.find?_isSome.mpr ⟨r, hr, by simp⟩)
    have hr' : r' ∈ m := List.mem_of_find?_eq_some hfound
    have hstart : start r' = start r := by simpa using List.find?_some hfound
    rw [hfound, eq_of_covers hr hr' ⟨le_rfl, m.nonempty r hr⟩
      ⟨hstart.le, hstart ▸ m.nonempty r' hr'⟩]

/-- An interval that starts at a point is the first one from its lower bound on. -/
theorem head?_after_of_start_eq (h : r ∈ m) (hr : start r = a) : (m.after a).head? = some r := by
  have hmem : r ∈ m.after a := (mem_before_or_after h).resolve_left fun hbefore =>
    (lt_of_mem_before hbefore).ne hr
  cases hafter : m.after a with
  | nil => simp [hafter] at hmem
  | cons r' rest =>
    have hr' : r' ∈ m.after a := by simp [hafter]
    have hle : start r ≤ start r' := hr.trans_le (le_of_mem_after hr')
    have hsorted : (m.after a).Pairwise fun r r' => start r < start r' :=
      m.start_lt.sublist (List.dropWhile_sublist _)
    rw [hafter] at hsorted hmem
    obtain rfl | hrest := List.mem_cons.mp hmem
    · rfl
    · exact absurd (List.rel_of_pairwise_cons hsorted hrest) hle.not_gt

/-- An interval that covers a point after its start is the last one before the lower bound. -/
theorem getLast?_before_of_covers (h : r ∈ m) (hr : start r < a) (hstop : a < stop r) :
    (m.before a).getLast? = some r := by
  have hmem : r ∈ m.before a := (mem_before_or_after h).resolve_right fun hafter =>
    (le_of_mem_after hafter).not_gt hr
  have hdisjoint : (m.before a).Pairwise fun r r' => stop r ≤ start r' :=
    m.disjoint.sublist (List.takeWhile_sublist _)
  obtain hnil | ⟨front, last, hconcat⟩ := List.eq_nil_or_concat' (m.before a)
  · simp [hnil] at hmem
  · have hlast : start last < a := lt_of_mem_before (m := m) (by simp [hconcat])
    rw [hconcat, List.mem_append, List.mem_singleton] at hmem
    rw [hconcat, List.pairwise_append] at hdisjoint
    obtain hfront | rfl := hmem
    · -- it would end before the last one starts
      have hle : stop r ≤ start last :=
        hdisjoint.2.2 r hfront last (List.mem_singleton.mpr rfl)
      exact absurd (hstop.trans_le (hle.trans hlast.le)) (lt_irrefl a)
    · rw [hconcat, List.getLast?_concat]

/-- The last interval starts last. -/
theorem start_le_of_getLast? {last : ρ} (hlast : m.toList.getLast? = some last) (h : r ∈ m) :
    start r ≤ start last := by
  obtain ⟨front, hconcat⟩ := List.getLast?_eq_some_iff.mp hlast
  have hsorted := m.start_lt
  rw [hconcat, List.pairwise_append] at hsorted
  have hmem : r ∈ front ++ [last] := hconcat ▸ h
  obtain hfront | hr := List.mem_append.mp hmem
  · exact (hsorted.2.2 r hfront last (List.mem_singleton.mpr rfl)).le
  · rw [List.mem_singleton.mp hr]

/-- No interval is left from the lower bound on if all of them start before the point. -/
theorem after_eq_nil (h : ∀ r ∈ m, start r < a) : m.after a = [] :=
  List.dropWhile_eq_nil_iff.mpr fun r hr => decide_eq_true (h r hr)

end IntervalMap

end Thanos
