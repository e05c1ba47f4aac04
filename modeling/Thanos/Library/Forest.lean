import Mathlib.Data.Finset.Card
import Mathlib.Data.Nat.Notation
import Mathlib.Logic.Relation

/-!
# Forests

A forest is a function that returns the parent of a node, if it has one. Whatever cannot be
reached from itself along the links has no cycle.

* **Siblings** (`Acyclic.not_below_sibling`): the descendants of siblings are different nodes.
* **Growth** (`Acyclic.of_leaf`): a node without children may be linked to any other node.
* **Pruning** (`below_iff_of_pruned`): where whole subtrees are cut off, the nodes that are left
  have the same ancestors as before.
* **Finiteness** (`numDescendants_lt`, `numAncestors_lt`): among finitely many nodes, the number
  of descendants decreases from a parent to a child, the number of ancestors from a child to a
  parent.
-/

namespace Thanos

universe u

variable {κ : Type u} (parent : κ → Option κ)

/-- `a` is the parent of `b`. -/
def Link (a b : κ) : Prop :=
  parent b = some a

/-- `b` is `a` or a descendant of `a`. -/
def Below : κ → κ → Prop :=
  Relation.ReflTransGen (Link parent)

/-- No node is its own descendant. -/
def Acyclic : Prop :=
  ∀ a, ¬ Relation.TransGen (Link parent) a a

variable {parent} {parent' : κ → Option κ} {a b c p : κ}

theorem below_iff : Below parent a b ↔ b = a ∨ ∃ c, Link parent a c ∧ Below parent c b := by
  rw [Below, Relation.ReflTransGen.cases_head_iff, eq_comm]

theorem Below.of_link (hlink : Link parent a c) (h : Below parent c b) : Below parent a b :=
  h.head hlink

/-- The ancestors of a node are those of its parent and the node itself. -/
theorem Below.of_ne (h : Below parent a b) (hlink : Link parent p b) (hne : b ≠ a) :
    Below parent a p := by
  obtain heq | ⟨p', h, hlink'⟩ := Relation.ReflTransGen.cases_tail h
  · exact absurd heq.symm (Ne.symm hne)
  · obtain rfl : p = p' := Option.some.inj (hlink.symm.trans hlink')
    exact h

/-- A parent is not a descendant of its child. -/
theorem Acyclic.not_below_parent (h : Acyclic parent) (hlink : Link parent a c) :
    ¬ Below parent c a :=
  fun hbelow => h a (Relation.TransGen.head' hlink hbelow)

/-- **Siblings.** -/
theorem Acyclic.not_below_sibling (h : Acyclic parent) (hb : Link parent a b)
    (hc : Link parent a c) (hne : c ≠ b) : ¬ Below parent b c :=
  fun hbelow => h.not_below_parent hb (Below.of_ne hbelow hc hne)

theorem Acyclic.mono (h : Acyclic parent) (hle : ∀ a b, Link parent' a b → Link parent a b) :
    Acyclic parent' :=
  fun a hcycle => h a (Relation.TransGen.mono hle _ _ hcycle)

/-- There is no cycle if something increases along the links. -/
theorem acyclic_of_lt {α : Type*} [Preorder α] (rank : κ → α)
    (h : ∀ a b, Link parent a b → rank a < rank b) : Acyclic parent := by
  have hpath : ∀ a b, Relation.TransGen (Link parent) a b → rank a < rank b := by
    intro a b hpath
    induction hpath with
    | single hlink => exact h _ _ hlink
    | tail _ hlink ih => exact ih.trans (h _ _ hlink)
  exact fun a hcycle => lt_irrefl _ (hpath a a hcycle)

/-- **Growth.** -/
theorem Acyclic.of_leaf (h : Acyclic parent) (hold : ∀ b, b ≠ p → parent' b = parent b)
    (hleaf : ∀ b, ¬ Link parent' p b) : Acyclic parent' := by
  -- a path that does not end at the leaf does not pass it
  have hpath : ∀ a b, Relation.TransGen (Link parent') a b → b ≠ p →
      Relation.TransGen (Link parent) a b := by
    intro a b hpath
    induction hpath with
    | single hlink => exact fun hne => .single ((hold _ hne).symm.trans hlink)
    | tail _ hlink ih =>
      intro hne
      have hinner : ∀ b c, Link parent' b c → b ≠ p := fun b c hlink heq => hleaf c (heq ▸ hlink)
      exact (ih (hinner _ _ hlink)).tail ((hold _ hne).symm.trans hlink)
  intro a hcycle
  by_cases ha : a = p
  · subst ha
    obtain ⟨c, hlink, -⟩ := Relation.TransGen.head'_iff.mp hcycle
    exact hleaf c hlink
  · exact h a (hpath a a hcycle ha)

/-- **Pruning.** -/
theorem below_iff_of_pruned {keep : Set κ} (hkeep : ∀ a b, Link parent a b → b ∈ keep → a ∈ keep)
    (hold : ∀ b ∈ keep, parent' b = parent b)
    (hle : ∀ a b, Link parent' a b → Link parent a b) (hb : b ∈ keep) :
    Below parent' a b ↔ Below parent a b := by
  refine ⟨fun h => Relation.ReflTransGen.mono hle _ _ h, fun h => ?_⟩
  induction h with
  | refl => exact .refl
  | tail _ hlink ih => exact (ih (hkeep _ _ hlink hb)).tail ((hold _ hb).trans hlink)

/-! ### Finiteness -/

section

open Classical

variable {s : Finset κ}

/-- The number of nodes of a set that are a node or a descendant of it. -/
noncomputable def numDescendants (parent : κ → Option κ) (s : Finset κ) (a : κ) : ℕ :=
  (s.filter fun b => Below parent a b).card

/-- The number of nodes of a set of which a node is a descendant, or the node itself. -/
noncomputable def numAncestors (parent : κ → Option κ) (s : Finset κ) (b : κ) : ℕ :=
  (s.filter fun a => Below parent a b).card

theorem numDescendants_le : numDescendants parent s a ≤ s.card :=
  Finset.card_filter_le _ _

theorem numAncestors_le : numAncestors parent s a ≤ s.card :=
  Finset.card_filter_le _ _

/-- **Finiteness**, downwards. -/
theorem numDescendants_lt (h : Acyclic parent) (hlink : Link parent a b) (ha : a ∈ s) :
    numDescendants parent s b < numDescendants parent s a := by
  refine Finset.card_lt_card (Finset.ssubset_iff_subset_ne.mpr ⟨fun c hc => ?_, fun heq => ?_⟩)
  · rw [Finset.mem_filter] at hc ⊢
    exact ⟨hc.1, hc.2.of_link hlink⟩
  · have hself : a ∈ s.filter fun c => Below parent a c :=
      Finset.mem_filter.mpr ⟨ha, Relation.ReflTransGen.refl⟩
    rw [← heq, Finset.mem_filter] at hself
    exact h.not_below_parent hlink hself.2

/-- **Finiteness**, upwards. -/
theorem numAncestors_lt (h : Acyclic parent) (hlink : Link parent a b) (hb : b ∈ s) :
    numAncestors parent s a < numAncestors parent s b := by
  refine Finset.card_lt_card (Finset.ssubset_iff_subset_ne.mpr ⟨fun c hc => ?_, fun heq => ?_⟩)
  · rw [Finset.mem_filter] at hc ⊢
    exact ⟨hc.1, hc.2.tail hlink⟩
  · have hself : b ∈ s.filter fun c => Below parent c b :=
      Finset.mem_filter.mpr ⟨hb, Relation.ReflTransGen.refl⟩
    rw [← heq, Finset.mem_filter] at hself
    exact h.not_below_parent hlink hself.2

end

end Thanos
