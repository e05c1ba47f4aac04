import Mathlib.Algebra.BigOperators.Group.Finset.Basic
import Mathlib.Data.Finset.Card
import Mathlib.Data.List.Sort

/-!
# Ordered sets

`OrderedSet α` is a finite set kept as a strictly increasing list, the iteration order of an
ordered container. The order is a field, so two sets with the same members are equal
(`OrderedSet.ext_mem`) and every operation is characterized by its members alone; the size is
the cardinality of the underlying `Finset`. All operations recurse on the list and evaluate
on concrete data.
-/

namespace Thanos

universe u

/-- A finite set stored as a strictly increasing list. -/
structure OrderedSet (α : Type u) [LinearOrder α] where
  /-- The elements in increasing order. -/
  toList : List α
  /-- The elements are strictly increasing. -/
  increasing : toList.Pairwise (· < ·)
  deriving DecidableEq

namespace OrderedSet

variable {α : Type u} [LinearOrder α] {a b : α} {s t : OrderedSet α}

instance : Membership α (OrderedSet α) :=
  ⟨fun s a => a ∈ s.toList⟩

instance : EmptyCollection (OrderedSet α) :=
  ⟨⟨[], List.Pairwise.nil⟩⟩

instance (a : α) (s : OrderedSet α) : Decidable (a ∈ s) :=
  inferInstanceAs (Decidable (a ∈ s.toList))

theorem mem_def : a ∈ s ↔ a ∈ s.toList :=
  Iff.rfl

@[simp]
theorem notMem_empty : a ∉ (∅ : OrderedSet α) :=
  List.not_mem_nil

/-- Two ordered sets with the same members are equal. -/
theorem ext_mem (h : ∀ a, a ∈ s ↔ a ∈ t) : s = t := by
  cases s with
  | mk l hl =>
    cases t with
    | mk l' hl' =>
      have hll' : l = l' := hl.eq_of_mem_iff hl' h
      subst hll'
      rfl

/-! ### Insertion and erasure -/

/-- Insertion into an increasing list; an element already there is not repeated. -/
def insertList (a : α) : List α → List α
  | [] => [a]
  | b :: l => if a < b then a :: b :: l else if a = b then b :: l else b :: insertList a l

theorem mem_insertList {l : List α} : b ∈ insertList a l ↔ b = a ∨ b ∈ l := by
  induction l with
  | nil => simp [insertList]
  | cons c l ih =>
    simp only [insertList]
    split_ifs with hlt heq
    · simp
    · subst heq
      simp
    · simp only [List.mem_cons, ih]
      tauto

theorem pairwise_insertList {l : List α} (hl : l.Pairwise (· < ·)) :
    (insertList a l).Pairwise (· < ·) := by
  induction l with
  | nil => simp [insertList]
  | cons c l ih =>
    obtain ⟨hc, hl⟩ := List.pairwise_cons.mp hl
    simp only [insertList]
    split_ifs with hlt heq
    · refine List.pairwise_cons.mpr ⟨fun d hd => ?_, List.pairwise_cons.mpr ⟨hc, hl⟩⟩
      obtain rfl | hd := List.mem_cons.mp hd
      · exact hlt
      · exact hlt.trans (hc d hd)
    · exact List.pairwise_cons.mpr ⟨hc, hl⟩
    · refine List.pairwise_cons.mpr ⟨fun d hd => ?_, ih hl⟩
      obtain rfl | hd := mem_insertList.mp hd
      · exact lt_of_le_of_ne (not_lt.mp hlt) (Ne.symm heq)
      · exact hc d hd

instance : Insert α (OrderedSet α) :=
  ⟨fun a s => ⟨insertList a s.toList, pairwise_insertList s.increasing⟩⟩

instance : Singleton α (OrderedSet α) :=
  ⟨fun a => insert a ∅⟩

@[simp]
theorem mem_insert : b ∈ insert a s ↔ b = a ∨ b ∈ s :=
  mem_insertList

@[simp]
theorem mem_singleton : b ∈ ({a} : OrderedSet α) ↔ b = a := by
  change b ∈ insert a (∅ : OrderedSet α) ↔ b = a
  simp

/-- The subset of the elements satisfying `p`. -/
def filter (p : α → Bool) (s : OrderedSet α) : OrderedSet α :=
  ⟨s.toList.filter p, s.increasing.filter p⟩

@[simp]
theorem mem_filter {p : α → Bool} : a ∈ s.filter p ↔ a ∈ s ∧ p a = true :=
  List.mem_filter

/-- Removal of one element, if present. -/
def erase (s : OrderedSet α) (a : α) : OrderedSet α :=
  s.filter fun b => decide (b ≠ a)

@[simp]
theorem mem_erase : b ∈ s.erase a ↔ b ≠ a ∧ b ∈ s := by
  simp [erase, and_comm]

theorem erase_of_notMem (h : a ∉ s) : s.erase a = s :=
  ext_mem fun _ => mem_erase.trans <| and_iff_right_of_imp fun hb => ne_of_mem_of_not_mem hb h

/-- Insertion of a list of elements, one after another. -/
def insertMany (s : OrderedSet α) (l : List α) : OrderedSet α :=
  l.foldl (fun s a => insert a s) s

@[simp]
theorem mem_insertMany {l : List α} : a ∈ s.insertMany l ↔ a ∈ l ∨ a ∈ s := by
  induction l generalizing s with
  | nil => simp [insertMany]
  | cons b l ih =>
    have hcons : s.insertMany (b :: l) = (insert b s).insertMany l := rfl
    rw [hcons, ih, mem_insert, List.mem_cons]
    tauto

/-! ### Size -/

/-- The number of elements. -/
def size (s : OrderedSet α) : ℕ :=
  s.toList.length

/-- The underlying finite set. -/
def toFinset (s : OrderedSet α) : Finset α :=
  ⟨s.toList, s.increasing.imp ne_of_lt⟩

@[simp]
theorem mem_toFinset : a ∈ s.toFinset ↔ a ∈ s :=
  Iff.rfl

theorem card_toFinset : s.toFinset.card = s.size :=
  rfl

@[simp]
theorem size_empty : (∅ : OrderedSet α).size = 0 :=
  rfl

theorem size_pos_iff : 0 < s.size ↔ ∃ a, a ∈ s := by
  rw [← card_toFinset, Finset.card_pos]
  rfl

theorem size_insert (h : a ∉ s) : (insert a s).size = s.size + 1 := by
  have hins : (insert a s).toFinset = insert a s.toFinset := by
    ext b
    simp
  rw [← card_toFinset, hins, Finset.card_insert_of_notMem (by simpa using h), card_toFinset]

theorem size_erase (h : a ∈ s) : (s.erase a).size = s.size - 1 := by
  have hers : (s.erase a).toFinset = s.toFinset.erase a := by
    ext b
    simp
  rw [← card_toFinset, hers, Finset.card_erase_of_mem (by simpa using h), card_toFinset]

theorem size_le_of_subset (h : ∀ b ∈ t, b ∈ s) : t.size ≤ s.size := by
  have hsub : t.toFinset ⊆ s.toFinset := fun b hb => h b hb
  exact Finset.card_le_card hsub

/-- A set that gains one element, at most. -/
theorem size_le_of_mem_insert (h : ∀ b ∈ t, b = a ∨ b ∈ s) : t.size ≤ s.size + 1 := by
  have hsub : t.toFinset ⊆ insert a s.toFinset := fun b hb => by
    rw [Finset.mem_insert, mem_toFinset]
    exact h b hb
  exact (Finset.card_le_card hsub).trans (Finset.card_insert_le a s.toFinset)

/-- A set in which one element takes the place of another. -/
theorem size_le_of_mem_replace {c : α} (hc : c ∈ s) (h : ∀ b ∈ t, b = a ∨ b ≠ c ∧ b ∈ s) :
    t.size ≤ s.size := by
  have hle : t.size ≤ (s.erase c).size + 1 :=
    size_le_of_mem_insert fun b hb => (h b hb).imp_right mem_erase.mpr
  have hpos : 0 < s.size := size_pos_iff.mpr ⟨c, hc⟩
  rw [size_erase hc] at hle
  omega

/-- The sizes of disjoint sets add up to that of their union. -/
theorem sum_size {ι : Type*} [DecidableEq ι] {places : Finset ι} {f : ι → OrderedSet α}
    (hmem : ∀ a, a ∈ s ↔ ∃ i ∈ places, a ∈ f i)
    (hdisj : ∀ a i j, a ∈ f i → a ∈ f j → i = j) : ∑ i ∈ places, (f i).size = s.size := by
  have hunion : s.toFinset = places.biUnion fun i => (f i).toFinset := by
    ext a
    simp only [mem_toFinset, Finset.mem_biUnion]
    exact hmem a
  have hpair : (places : Set ι).PairwiseDisjoint fun i => (f i).toFinset := by
    intro i _ j _ hne
    rw [Function.onFun, Finset.disjoint_left]
    intro a hi hj
    exact hne (hdisj a i j hi hj)
  rw [← card_toFinset, hunion, Finset.card_biUnion hpair]
  exact Finset.sum_congr rfl fun i _ => card_toFinset.symm

/-! ### The first element -/

/-- The smallest element, where the iteration starts. -/
def begin? (s : OrderedSet α) : Option α :=
  s.toList.head?

theorem mem_of_begin? (h : s.begin? = some a) : a ∈ s :=
  List.mem_of_head? h

theorem exists_begin? (h : 0 < s.size) : ∃ a, s.begin? = some a := by
  unfold size at h
  unfold begin?
  cases hl : s.toList with
  | nil => simp [hl] at h
  | cons a l => exact ⟨a, rfl⟩

end OrderedSet

end Thanos
