import Mathlib.Data.List.Nodup
import Thanos.Library.Forest
import Thanos.Library.Run

/-!
# Descendants in preorder

`preorder kids fuel a` lists the descendants of a node of a forest, each child followed by its
own descendants. The children are what `kids` returns, in whatever order, and a node that `kids`
does not know has no result.

* **Ancestors** (`Below.comparable`): of two ancestors of a node one is below the other.
* **Descendants** (`preorder_spec`): in a finite forest the list has every descendant once, the
  node itself not among them.
-/

namespace Thanos

universe u

variable {κ : Type u} (kids : κ → Option (List κ))

/-- The descendants of a node, for a number of generations. -/
def preorder : ℕ → κ → Option (List κ)
  | 0, _ => none
  | fuel + 1, a =>
    (kids a).bind fun children => children.foldlM
      (fun listed child => (preorder fuel child).map fun aux => listed ++ child :: aux) []

variable {kids} {parent : κ → Option κ} {a b c x : κ}

/-- **Ancestors.** -/
theorem Below.comparable (ha : Below parent a x) (hb : Below parent b x) :
    Below parent a b ∨ Below parent b a := by
  induction ha with
  | refl => exact .inr hb
  | @tail y z hay hlink ih =>
    obtain heq | ⟨y', hby', hlink'⟩ := Relation.ReflTransGen.cases_tail hb
    · subst heq
      exact .inl (Relation.ReflTransGen.tail hay hlink)
    · -- the node has only one parent
      obtain rfl : y = y' := Option.some.inj (hlink.symm.trans hlink')
      exact ih hby'

/-- Different siblings have different descendants. -/
theorem Acyclic.eq_of_below (h : Acyclic parent) (hb : Link parent a b) (hc : Link parent a c)
    (hbx : Below parent b x) (hcx : Below parent c x) : b = c := by
  by_contra hne
  obtain hbc | hcb := hbx.comparable hcx
  · exact h.not_below_sibling hb hc (Ne.symm hne) hbc
  · exact h.not_below_sibling hc hb hne hcb

/-- The strict descendants are the children and what is below them. -/
theorem transGen_iff_exists_child :
    Relation.TransGen (Link parent) a x ↔ ∃ b, Link parent a b ∧ Below parent b x :=
  Relation.TransGen.head'_iff

/-- `kids` returns the children of a node, each once. -/
def Lists (kids : κ → Option (List κ)) (parent : κ → Option κ) (a : κ) : Prop :=
  ∃ children, kids a = some children ∧ children.Nodup ∧ ∀ b, b ∈ children ↔ Link parent a b

/-- The subtrees of some of the children have been listed. -/
structure ListsBelow (parent : κ → Option κ) (done : List κ) (listed : List κ) : Prop where
  nodup : listed.Nodup
  mem_iff : ∀ x, x ∈ listed ↔ ∃ b ∈ done, Below parent b x

/-- One more child is listed with its descendants. -/
theorem ListsBelow.append {done listed aux : List κ} (h : Acyclic parent)
    (hlisted : ListsBelow parent done listed) (hdone : ∀ b ∈ done, Link parent a b)
    (hc : Link parent a c) (hnew : c ∉ done) (hnodup : aux.Nodup)
    (haux : ∀ x, x ∈ aux ↔ Relation.TransGen (Link parent) c x) :
    ListsBelow parent (done ++ [c]) (listed ++ c :: aux) := by
  have hbelow : ∀ x, x ∈ c :: aux ↔ Below parent c x := fun x => by
    rw [List.mem_cons, haux, Below, Relation.reflTransGen_iff_eq_or_transGen]
  have hself : (c :: aux).Nodup := List.nodup_cons.mpr ⟨fun hmem => h c ((haux c).mp hmem), hnodup⟩
  refine ⟨List.nodup_append.mpr ⟨hlisted.nodup, hself, ?_⟩, fun x => ?_⟩
  · -- a node that is listed already is below another child
    rintro x hx y hy rfl
    obtain ⟨b, hb, hbx⟩ := (hlisted.mem_iff x).mp hx
    have heq : b = c := h.eq_of_below (hdone b hb) hc hbx ((hbelow x).mp hy)
    exact hnew (heq ▸ hb)
  · rw [List.mem_append, hlisted.mem_iff, hbelow]
    simp only [List.mem_append, List.mem_singleton, or_and_right, exists_or, exists_eq_left]

/-- **Descendants.** -/
theorem preorder_spec (h : Acyclic parent) {s : Finset κ}
    (hkids : ∀ b ∈ s, Lists kids parent b) (hclosed : ∀ b c, Link parent b c → c ∈ s) {fuel : ℕ}
    (ha : a ∈ s) (hfuel : numDescendants parent s a < fuel) :
    ∃ listed, preorder kids fuel a = some listed ∧ listed.Nodup ∧
      ∀ x, x ∈ listed ↔ Relation.TransGen (Link parent) a x := by
  induction fuel generalizing a with
  | zero => omega
  | succ fuel ih =>
    obtain ⟨children, hchildren, hnodup, hmem⟩ := hkids a ha
    obtain ⟨listed, heq, hlisted⟩ := foldlM_processed children (s := [])
      (P := ListsBelow parent)
      (f := fun listed child => (preorder kids fuel child).map fun aux => listed ++ child :: aux)
      ⟨List.nodup_nil, by simp⟩ fun done c rest listed hdone hlisted => by
        have hc : Link parent a c := (hmem c).mp (hdone ▸ by simp)
        have hlinks : ∀ b ∈ done, Link parent a b :=
          fun b hb => (hmem b).mp (hdone ▸ List.mem_append_left _ hb)
        have hnew : c ∉ done := by
          rw [hdone] at hnodup
          exact fun hc' => (List.nodup_append.mp hnodup).2.2 c hc' c List.mem_cons_self rfl
        have hless := numDescendants_lt h hc ha
        obtain ⟨aux, haux, hnodupaux, hmemaux⟩ := ih (hclosed a c hc) (by omega)
        exact ⟨listed ++ c :: aux, by rw [haux]; rfl,
          hlisted.append h hlinks hc hnew hnodupaux hmemaux⟩
    refine ⟨listed, by rw [preorder, hchildren]; exact heq, hlisted.nodup, fun x => ?_⟩
    rw [hlisted.mem_iff, transGen_iff_exists_child]
    simp only [hmem]

end Thanos
