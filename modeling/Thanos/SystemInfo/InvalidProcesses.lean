import Thanos.SystemInfo.ProcessLinks

/-!
# Erasing the invalid processes

`erase_invalid` first takes every invalid process out of the children of its parent and then
erases the invalid processes, the smallest identifier first. A process that has been taken out
keeps its link to the parent, and is not reached any more when the parent is erased.

* **Detachment** (`foldlM_detach`): after the first loop no process lists an invalid child.
* **Erasure** (`foldlM_erase_cutOff`): if all children of invalid processes are invalid, the
  second loop goes on as long as no process is erased after its parent.
* **Invalid processes** (`erasesInvalid_iff`): the invalid processes are erased with their
  descendants exactly when each child of one of them is invalid and has a smaller identifier.
-/

namespace Thanos

namespace ProcessTree

/-- The invalid processes of a tree. -/
def Invalid (t : ProcessTree) : Set Pid :=
  {pid | ∃ p, t.processes pid = some p ∧ p.valid = false}

/-- The invalid processes are removed with their descendants, the removed processes are returned,
and the links of the others are consistent. -/
structure ErasesInvalid (t : ProcessTree) (deleted : OrderedSet Pid) (t' : ProcessTree) : Prop where
  removed_iff : ∀ q, ((t.processes q).isSome = true ∧ t'.processes q = none) ↔
    ∃ pid ∈ t.Invalid, Below t.parentOf pid q
  mem_deleted_iff : ∀ q, q ∈ deleted ↔ (t.processes q).isSome = true ∧ t'.processes q = none
  no_new : ∀ q, t.processes q = none → t'.processes q = none
  consistent : t'.Consistent

/-- The children of invalid processes are invalid and have smaller identifiers. -/
def ChildrenFirst (t : ProcessTree) : Prop :=
  ∀ pid ∈ t.Invalid, ∀ child, Link t.parentOf pid child → child ∈ t.Invalid ∧ child < pid

open Classical in
/-- What is left of a tree if some processes are not listed as children any more and some are
removed. -/
noncomputable def cutOff (t : ProcessTree) (detached removed : Set Pid) : ProcessTree where
  processes pid :=
    if pid ∈ removed then none else (t.processes pid).map (.restrict detachedᶜ)
  pids := t.pids.filter fun pid => decide (pid ∉ removed)
  mem_pids pid := by
    rw [OrderedSet.mem_filter, t.mem_pids, decide_eq_true_eq]
    split_ifs with h <;> simp [h]

variable {t t' : ProcessTree} {pid child q : Pid} {p : ProcessNode}
  {detached removed : Set Pid}

theorem cutOff_processes_of_notMem (hq : q ∉ removed) :
    (t.cutOff detached removed).processes q = (t.processes q).map (.restrict detachedᶜ) :=
  if_neg hq

theorem cutOff_processes_of_mem (hq : q ∈ removed) :
    (t.cutOff detached removed).processes q = none :=
  if_pos hq

/-- Without its invalid processes a tree is pruned. -/
theorem cutOff_eq_restrict : t.cutOff removed removed = t.restrict removedᶜ := by
  refine ext_processes (funext fun q => ?_)
  by_cases hq : q ∈ removed
  · rw [cutOff_processes_of_mem hq, restrict_processes_of_notMem (Set.notMem_compl_iff.mpr hq)]
  · rw [cutOff_processes_of_notMem hq, restrict_processes_of_mem hq]

/-! ### Detachment -/

theorem Consistent.cutOff_empty (h : t.Consistent) : t.cutOff ∅ ∅ = t := by
  rw [cutOff_eq_restrict]
  exact h.restrict_eq_self fun q _ hq => hq

/-- A process that no process lists as a child is detached already. -/
theorem restrict_insert_of_notMem (hchild : child ∉ p.children) :
    p.restrict (detached ∪ {child})ᶜ = p.restrict detachedᶜ := by
  refine restrict_eq_of_children rfl rfl rfl fun q => ?_
  rw [mem_restrict_children]
  refine and_congr_right fun hq => ?_
  have hne : q ≠ child := fun heq => hchild (heq ▸ hq)
  simp [hne]

/-- A process that is detached is dropped from the children. -/
theorem dropChild_restrict :
    (p.restrict detachedᶜ).dropChild child = p.restrict (detached ∪ {child})ᶜ := by
  refine restrict_eq_of_children rfl rfl rfl fun q => ?_
  rw [ProcessNode.dropChild, OrderedSet.mem_erase, mem_restrict_children]
  simp only [Set.mem_compl_iff, Set.mem_union, Set.mem_singleton_iff, not_or]
  tauto

/-- A process with a parent is detached by dropping it from the children of the parent. -/
theorem removeChildren_cutOff (h : t.Consistent) (hlink : Link t.parentOf pid child)
    (hpid : pid ∉ removed) :
    (t.cutOff detached removed).removeChildren pid child =
      some (t.cutOff (detached ∪ {child}) removed) := by
  obtain ⟨p, hp, hmem⟩ := h.exists_of_link hlink
  have hparent : (t.cutOff detached removed).processes pid = some (p.restrict detachedᶜ) := by
    rw [cutOff_processes_of_notMem hpid, hp, Option.map_some]
  rw [removeChildren, hparent, Option.map_some]
  refine congrArg some (ext_processes (funext fun q => ?_))
  by_cases hq : q = pid
  · rw [hq, put_processes_self, cutOff_processes_of_notMem hpid, hp, Option.map_some,
      ← dropChild_restrict]
    rfl
  · rw [put_processes_of_ne hq]
    by_cases hremoved : q ∈ removed
    · rw [cutOff_processes_of_mem hremoved, cutOff_processes_of_mem hremoved]
    · rw [cutOff_processes_of_notMem hremoved, cutOff_processes_of_notMem hremoved]
      rcases hr : t.processes q with _ | r
      · rfl
      · have hchild : child ∉ r.children := by
          intro hmem'
          have hlink' := (h.mem_children_iff hr).mp hmem'
          exact hq (Option.some.inj (hlink'.symm.trans hlink))
        rw [Option.map_some, Option.map_some, restrict_insert_of_notMem hchild]

/-- Nothing changes if a process is detached that has no parent, or is detached already. -/
theorem cutOff_union_of_forall (h : t.Consistent)
    (hlink : ∀ pid, Link t.parentOf pid child → child ∈ detached) :
    t.cutOff (detached ∪ {child}) removed = t.cutOff detached removed := by
  refine ext_processes (funext fun q => ?_)
  by_cases hq : q ∈ removed
  · rw [cutOff_processes_of_mem hq, cutOff_processes_of_mem hq]
  · rw [cutOff_processes_of_notMem hq, cutOff_processes_of_notMem hq]
    rcases hr : t.processes q with _ | r
    · rfl
    · by_cases hchild : child ∈ r.children
      · have hmem := hlink q ((h.mem_children_iff hr).mp hchild)
        rw [Set.union_eq_self_of_subset_right (Set.singleton_subset_iff.mpr hmem)]
      · rw [Option.map_some, Option.map_some, restrict_insert_of_notMem hchild]

/-- One iteration of the first loop. -/
theorem detach_cutOff (h : t.Consistent) (hp : t.processes pid = some p)
    (deleted : OrderedSet Pid) :
    detach (deleted, t.cutOff detached ∅) pid =
      some (if p.valid then (deleted, t.cutOff detached ∅)
        else (Insert.insert pid deleted, t.cutOff (detached ∪ {pid}) ∅)) := by
  have hprocess : (t.cutOff detached ∅).processes pid = some (p.restrict detachedᶜ) := by
    rw [cutOff_processes_of_notMem (Set.notMem_empty pid), hp, Option.map_some]
  have hsame : (p.restrict detachedᶜ).valid = p.valid ∧
      (p.restrict detachedᶜ).parent = p.parent := ⟨rfl, rfl⟩
  rw [detach, hprocess, Option.bind_some, hsame.1, hsame.2]
  by_cases hvalid : p.valid = true
  · rw [if_pos hvalid, if_pos hvalid]
  · rw [if_neg hvalid, if_neg hvalid]
    rcases hparent : p.parent with _ | parent
    · have hlink : ∀ q, Link t.parentOf q pid → pid ∈ detached := by
        intro q hlink
        rw [Link, parentOf, hp, Option.bind_some, hparent] at hlink
        cases hlink
      rw [cutOff_union_of_forall h hlink]
    · have hlink : Link t.parentOf parent pid := link_parentOf_iff.mpr ⟨p, hp, hparent⟩
      simp only [removeChildren_cutOff h hlink (Set.notMem_empty parent), Option.map_some]

/-- The invalid processes among some. -/
theorem invalid_cons {visit : List Pid} :
    {q | q ∈ pid :: visit ∧ q ∈ t.Invalid} =
      {q | q = pid ∧ q ∈ t.Invalid} ∪ {q | q ∈ visit ∧ q ∈ t.Invalid} := by
  ext q
  simp only [Set.mem_union, Set.mem_ofPred_eq, List.mem_cons, or_and_right]

/-- One iteration of the first loop detaches and lists the process if it is invalid. -/
theorem exists_detach_cutOff (h : t.Consistent) (hpid : (t.processes pid).isSome = true)
    (deleted : OrderedSet Pid) :
    ∃ deleted', detach (deleted, t.cutOff detached ∅) pid =
        some (deleted', t.cutOff (detached ∪ {q | q = pid ∧ q ∈ t.Invalid}) ∅) ∧
      ∀ q, q ∈ deleted' ↔ q ∈ deleted ∨ q = pid ∧ q ∈ t.Invalid := by
  obtain ⟨p, hp⟩ := Option.isSome_iff_exists.mp hpid
  rw [detach_cutOff h hp]
  by_cases hvalid : p.valid = true
  · have hnot : ∀ q, ¬ (q = pid ∧ q ∈ t.Invalid) := by
      rintro q ⟨rfl, p', hp', hinvalid⟩
      obtain rfl : p = p' := Option.some.inj (hp.symm.trans hp')
      simp [hvalid] at hinvalid
    have hempty : {q | q = pid ∧ q ∈ t.Invalid} = (∅ : Set Pid) :=
      Set.eq_empty_of_forall_notMem hnot
    refine ⟨deleted, ?_, fun q => (or_iff_left (hnot q)).symm⟩
    rw [if_pos hvalid, hempty, Set.union_empty]
  · have hinvalid : pid ∈ t.Invalid := ⟨p, hp, by simpa using hvalid⟩
    have hsingle : ∀ q, q = pid ∧ q ∈ t.Invalid ↔ q = pid :=
      fun q => and_iff_left_of_imp fun hq => hq ▸ hinvalid
    refine ⟨Insert.insert pid deleted, ?_, fun q => ?_⟩
    · rw [if_neg hvalid]
      simp only [hsingle]
      rfl
    · rw [hsingle, OrderedSet.mem_insert, or_comm]

/-- **Detachment.** -/
theorem foldlM_detach (h : t.Consistent) {visit : List Pid}
    (hvisit : ∀ pid ∈ visit, (t.processes pid).isSome = true) (deleted : OrderedSet Pid) :
    ∃ deleted', visit.foldlM detach (deleted, t.cutOff detached ∅) =
        some (deleted', t.cutOff (detached ∪ {pid | pid ∈ visit ∧ pid ∈ t.Invalid}) ∅) ∧
      ∀ q, q ∈ deleted' ↔ q ∈ deleted ∨ q ∈ visit ∧ q ∈ t.Invalid := by
  induction visit generalizing deleted detached with
  | nil => exact ⟨deleted, by simp, by simp⟩
  | cons pid visit ih =>
    obtain ⟨hpid, hrest⟩ := List.forall_mem_cons.mp hvisit
    obtain ⟨deleted₁, hstep, hmem₁⟩ := @exists_detach_cutOff _ _ detached h hpid deleted
    obtain ⟨deleted₂, hfold, hmem₂⟩ :=
      @ih (detached ∪ {q | q = pid ∧ q ∈ t.Invalid}) hrest deleted₁
    refine ⟨deleted₂, ?_, fun q => ?_⟩
    · rw [List.foldlM_cons, hstep, Option.bind_eq_bind, Option.bind_some, hfold, invalid_cons,
        Set.union_assoc]
    · rw [hmem₂, hmem₁, List.mem_cons, or_and_right, or_assoc]

/-! ### Erasure -/

theorem remove_cutOff :
    (t.cutOff detached removed).remove pid = t.cutOff detached (removed ∪ {pid}) := by
  refine ext_processes (funext fun q => ?_)
  by_cases hq : q = pid
  · have hmem : pid ∈ removed ∪ {pid} := .inr rfl
    rw [hq, remove_processes_self, cutOff_processes_of_mem hmem]
  · rw [remove_processes_of_ne hq]
    by_cases hmem : q ∈ removed
    · have hmem' : q ∈ removed ∪ {pid} := .inl hmem
      rw [cutOff_processes_of_mem hmem, cutOff_processes_of_mem hmem']
    · have hmem' : q ∉ removed ∪ {pid} := fun h => h.elim hmem hq
      rw [cutOff_processes_of_notMem hmem, cutOff_processes_of_notMem hmem']

/-- A process all of whose children are detached is erased by itself. -/
theorem erase_eq_removeSelf (order : ChildOrder) (h : t.Consistent)
    (hp : t.processes pid = some p) (hpid : pid ∉ removed)
    (hchildren : ∀ child, Link t.parentOf pid child → child ∈ detached) :
    (t.cutOff detached removed).erase order pid =
      (t.cutOff detached removed).removeSelf pid := by
  have hprocess : (t.cutOff detached removed).processes pid = some (p.restrict detachedᶜ) := by
    rw [cutOff_processes_of_notMem hpid, hp, Option.map_some]
  have hnone : (p.restrict detachedᶜ).children.toList = [] := by
    refine List.eq_nil_iff_forall_not_mem.mpr fun child hchild => ?_
    obtain ⟨hmem, hnot⟩ := mem_restrict_children.mp (OrderedSet.mem_def.mpr hchild)
    exact hnot (hchildren child ((h.mem_children_iff hp).mp hmem))
  have hvisit := order.perm pid (p.restrict detachedᶜ).children
  rw [hnone, List.perm_nil] at hvisit
  rw [erase, eraseFuel, hprocess]
  simp only [hvisit, List.foldlM_nil, Option.pure_def, Option.bind_some]

/-- One iteration of the second loop, which follows the link to the parent. -/
theorem erase_cutOff (order : ChildOrder) (h : t.Consistent) (hp : t.processes pid = some p)
    (hpid : pid ∉ removed) (hdetached : pid ∈ detached)
    (hchildren : ∀ child, Link t.parentOf pid child → child ∈ detached) :
    (t.cutOff detached removed).erase order pid = some t' ↔
      (∀ parent ∈ removed, ¬ Link t.parentOf parent pid) ∧
        t' = t.cutOff detached (removed ∪ {pid}) := by
  have hprocess : (t.cutOff detached removed).processes pid = some (p.restrict detachedᶜ) := by
    rw [cutOff_processes_of_notMem hpid, hp, Option.map_some]
  have hsame : (p.restrict detachedᶜ).parent = p.parent := rfl
  rw [erase_eq_removeSelf order h hp hpid hchildren, removeSelf, hprocess, Option.bind_some, hsame]
  rcases hparent : p.parent with _ | parent
  · have hlink : ∀ q, ¬ Link t.parentOf q pid := by
      intro q hlink
      rw [Link, parentOf, hp, Option.bind_some, hparent] at hlink
      cases hlink
    simp only [remove_cutOff, Option.some.injEq, hlink, not_false_eq_true, implies_true,
      true_and, eq_comm]
  · have hlink : Link t.parentOf parent pid := link_parentOf_iff.mpr ⟨p, hp, hparent⟩
    by_cases hmem : parent ∈ removed
    · simp only [removeChildren, cutOff_processes_of_mem hmem, Option.map_none, reduceCtorEq,
        false_iff, not_and]
      exact fun hall => absurd hlink (hall parent hmem)
    · have hunion : t.cutOff (detached ∪ {pid}) removed = t.cutOff detached removed := by
        rw [Set.union_eq_self_of_subset_right (Set.singleton_subset_iff.mpr hdetached)]
      have hall : ∀ q ∈ removed, ¬ Link t.parentOf q pid := by
        intro q hq hlink'
        exact hmem (Option.some.inj (hlink.symm.trans hlink') ▸ hq)
      simp only [removeChildren_cutOff h hlink hmem, hunion, Option.map_some, remove_cutOff,
        Option.some.injEq, iff_true_intro hall, true_and, eq_comm]

/-- **Erasure.** -/
theorem foldlM_erase_cutOff (order : ChildOrder) (h : t.Consistent) {pids : List Pid}
    (hpids : ∀ pid ∈ pids, (t.processes pid).isSome = true ∧ pid ∉ removed ∧ pid ∈ detached ∧
      ∀ child, Link t.parentOf pid child → child ∈ detached) (hnodup : pids.Nodup) :
    pids.foldlM (fun t pid => t.erase order pid) (t.cutOff detached removed) = some t' ↔
      (∀ pid ∈ pids, ∀ parent ∈ removed, ¬ Link t.parentOf parent pid) ∧
        pids.Pairwise (fun parent pid => ¬ Link t.parentOf parent pid) ∧
        t' = t.cutOff detached (removed ∪ {pid | pid ∈ pids}) := by
  induction pids generalizing removed with
  | nil => simp [eq_comm]
  | cons pid pids ih =>
    obtain ⟨⟨hpid, hnot, hdetached, hchildren⟩, hrest⟩ := List.forall_mem_cons.mp hpids
    obtain ⟨p, hp⟩ := Option.isSome_iff_exists.mp hpid
    obtain ⟨hnew, hnodup⟩ := List.nodup_cons.mp hnodup
    have hrest' : ∀ q ∈ pids, (t.processes q).isSome = true ∧ q ∉ removed ∪ {pid} ∧
        q ∈ detached ∧ ∀ child, Link t.parentOf q child → child ∈ detached := by
      intro q hq
      obtain ⟨hsome, hnot', hdetached', hchildren'⟩ := hrest q hq
      have hne : q ≠ pid := fun heq => hnew (heq ▸ hq)
      exact ⟨hsome, fun hmem => hmem.elim hnot' hne, hdetached', hchildren'⟩
    have hunion : removed ∪ {pid} ∪ {q | q ∈ pids} = removed ∪ {q | q ∈ pid :: pids} := by
      ext q
      simp only [Set.mem_union, Set.mem_ofPred_eq, List.mem_cons, Set.mem_singleton_iff, or_assoc]
    rw [List.foldlM_cons, Option.bind_eq_bind, Option.bind_eq_some_iff, List.pairwise_cons,
      List.forall_mem_cons]
    constructor
    · rintro ⟨s, hs, hfold⟩
      obtain ⟨hparent, rfl⟩ := (erase_cutOff order h hp hnot hdetached hchildren).mp hs
      obtain ⟨hparents, hpairs, rfl⟩ := (ih hrest' hnodup).mp hfold
      refine ⟨⟨hparent, fun q hq r hr => hparents q hq r (.inl hr)⟩,
        ⟨fun q hq => hparents q hq pid (.inr rfl), hpairs⟩, by rw [hunion]⟩
    · rintro ⟨⟨hparent, hparents⟩, ⟨hfirst, hpairs⟩, rfl⟩
      refine ⟨_, (erase_cutOff order h hp hnot hdetached hchildren).mpr ⟨hparent, rfl⟩,
        (ih hrest' hnodup).mpr ⟨?_, hpairs, by rw [hunion]⟩⟩
      rintro q hq r (hr | rfl)
      · exact hparents q hq r hr
      · exact hfirst q hq

/-! ### Invalid processes -/

/-- A process is in the tree and invalid. -/
def isInvalid (t : ProcessTree) (pid : Pid) : Bool :=
  (t.processes pid).any fun p => !p.valid

theorem mem_invalid_iff : pid ∈ t.Invalid ↔ t.isInvalid pid = true := by
  simp [Invalid, isInvalid, Option.any_eq_true]

theorem isSome_of_mem_invalid (hq : q ∈ t.Invalid) : (t.processes q).isSome = true := by
  obtain ⟨p, hp, -⟩ := hq
  rw [hp, Option.isSome_some]

/-- The first loop detaches and lists the invalid processes. -/
theorem detach_invalid (h : t.Consistent) {visit : List Pid} (hvisit : visit.Perm t.pids.toList) :
    ∃ deleted, visit.foldlM detach (∅, t) = some (deleted, t.cutOff t.Invalid ∅) ∧
      ∀ q, q ∈ deleted ↔ q ∈ t.Invalid := by
  have hmem : ∀ q, q ∈ visit ↔ (t.processes q).isSome = true := fun q => by
    rw [hvisit.mem_iff, ← OrderedSet.mem_def, t.mem_pids]
  obtain ⟨deleted, hfold, hdeleted⟩ := @foldlM_detach _ ∅ h visit (fun q => (hmem q).mp) ∅
  have hinvalid : ∀ q, q ∈ visit ∧ q ∈ t.Invalid ↔ q ∈ t.Invalid := fun q =>
    and_iff_right_of_imp fun hq => (hmem q).mpr (isSome_of_mem_invalid hq)
  have hset : (∅ : Set Pid) ∪ {q | q ∈ visit ∧ q ∈ t.Invalid} = t.Invalid := by
    ext q
    simp only [Set.empty_union, Set.mem_ofPred_eq, hinvalid]
  rw [h.cutOff_empty, hset] at hfold
  refine ⟨deleted, hfold, fun q => ?_⟩
  rw [hdeleted, hinvalid, or_iff_right OrderedSet.notMem_empty]

/-- The second loop, if all children of invalid processes are invalid. -/
theorem erase_invalid (order : ChildOrder) (h : t.Consistent) {deleted : OrderedSet Pid}
    (hdeleted : ∀ q, q ∈ deleted ↔ q ∈ t.Invalid)
    (hclosed : ∀ pid ∈ t.Invalid, ∀ child, Link t.parentOf pid child → child ∈ t.Invalid) :
    deleted.toList.foldlM (fun t pid => t.erase order pid) (t.cutOff t.Invalid ∅) = some t' ↔
      t.ChildrenFirst ∧ t' = t.restrict t.Invalidᶜ := by
  have hset : (∅ : Set Pid) ∪ {q | q ∈ deleted.toList} = t.Invalid := by
    ext q
    simp only [Set.empty_union, Set.mem_ofPred_eq, ← OrderedSet.mem_def, hdeleted]
  have hpids : ∀ pid ∈ deleted.toList, (t.processes pid).isSome = true ∧ pid ∉ (∅ : Set Pid) ∧
      pid ∈ t.Invalid ∧ ∀ child, Link t.parentOf pid child → child ∈ t.Invalid := by
    intro pid hpid
    have hinvalid := (hdeleted pid).mp (OrderedSet.mem_def.mpr hpid)
    exact ⟨isSome_of_mem_invalid hinvalid, Set.notMem_empty pid, hinvalid, hclosed pid hinvalid⟩
  rw [foldlM_erase_cutOff order h hpids (deleted.increasing.imp ne_of_lt), hset, cutOff_eq_restrict]
  rw [and_iff_right fun _ _ _ hmem => absurd hmem (Set.notMem_empty _)]
  refine and_congr_left fun _ => ?_
  constructor
  · intro hpairs pid hpid child hlink
    have hchild := hclosed pid hpid child hlink
    refine ⟨hchild, lt_of_not_ge fun hle => ?_⟩
    obtain rfl | hlt := hle.eq_or_lt
    · exact h.acyclic pid (.single hlink)
    · -- the parent would be erased first
      have hall := List.Pairwise.forall_of_forall_of_flip
        (R := fun a b => a < b → ¬ Link t.parentOf a b) (fun a _ hlt => absurd hlt (lt_irrefl a))
        (hpairs.imp fun {a b} hnot (_ : a < b) => hnot)
        (deleted.increasing.imp fun hlt hlt' => absurd (hlt.trans hlt') (lt_irrefl _))
      exact hall (OrderedSet.mem_def.mp ((hdeleted pid).mpr hpid))
        (OrderedSet.mem_def.mp ((hdeleted child).mpr hchild)) hlt hlink
  · intro hfirst
    refine deleted.increasing.imp_of_mem fun {parent q} hparent _ hlt hlink => ?_
    have hinvalid := (hdeleted parent).mp (OrderedSet.mem_def.mpr hparent)
    exact lt_asymm hlt (hfirst parent hinvalid q hlink).2

/-- Without its invalid processes a tree has lost them and their descendants. -/
theorem erasesInvalid_restrict (h : t.Consistent) {deleted : OrderedSet Pid}
    (hdeleted : ∀ q, q ∈ deleted ↔ q ∈ t.Invalid)
    (hclosed : ∀ pid ∈ t.Invalid, ∀ child, Link t.parentOf pid child → child ∈ t.Invalid) :
    ErasesInvalid t deleted (t.restrict t.Invalidᶜ) := by
  have hremoved : ∀ q, ((t.processes q).isSome = true ∧
      (t.restrict t.Invalidᶜ).processes q = none) ↔ q ∈ t.Invalid := by
    intro q
    constructor
    · rintro ⟨hsome, hnone⟩
      by_contra hq
      rw [restrict_processes_of_mem hq, Option.map_eq_none_iff] at hnone
      rw [hnone] at hsome
      cases hsome
    · exact fun hq => ⟨isSome_of_mem_invalid hq,
        restrict_processes_of_notMem (Set.notMem_compl_iff.mpr hq)⟩
  have hbelow : ∀ pid ∈ t.Invalid, ∀ q, Below t.parentOf pid q → q ∈ t.Invalid := by
    intro pid hpid q hbelow
    induction hbelow with
    | refl => exact hpid
    | tail _ hlink ih => exact hclosed _ ih _ hlink
  refine ⟨fun q => ?_, fun q => by rw [hdeleted, hremoved], fun q hq => ?_, h.restrict ?_⟩
  · rw [hremoved]
    exact ⟨fun hq => ⟨q, hq, .refl⟩, fun ⟨pid, hpid, hq⟩ => hbelow pid hpid q hq⟩
  · by_cases hmem : q ∈ t.Invalidᶜ
    · rw [restrict_processes_of_mem hmem, hq, Option.map_none]
    · exact restrict_processes_of_notMem hmem
  · exact fun parent q hlink hq hparent => hq (hclosed parent hparent q hlink)

/-- The second loop goes on to the end. -/
theorem eraseInvalid_of_childrenFirst (order : ChildOrder) (h : t.Consistent) {visit : List Pid}
    (hvisit : visit.Perm t.pids.toList) (hfirst : t.ChildrenFirst) :
    ∃ deleted t', t.eraseInvalid order visit = some (deleted, t') ∧ ErasesInvalid t deleted t' := by
  obtain ⟨deleted, hfold, hdeleted⟩ := detach_invalid h hvisit
  have hclosed : ∀ pid ∈ t.Invalid, ∀ child, Link t.parentOf pid child → child ∈ t.Invalid :=
    fun pid hpid child hlink => (hfirst pid hpid child hlink).1
  have hs := (erase_invalid order h hdeleted hclosed).mpr ⟨hfirst, rfl⟩
  refine ⟨deleted, _, ?_, erasesInvalid_restrict h hdeleted hclosed⟩
  rw [eraseInvalid, hfold]
  exact Option.map_eq_some_iff.mpr ⟨_, hs, rfl⟩

/-- **Invalid processes.** -/
theorem erasesInvalid_iff (order : ChildOrder) (h : t.Consistent) {visit : List Pid}
    (hvisit : visit.Perm t.pids.toList) :
    (∃ deleted t', t.eraseInvalid order visit = some (deleted, t') ∧ ErasesInvalid t deleted t') ↔
      t.ChildrenFirst := by
  refine ⟨?_, eraseInvalid_of_childrenFirst order h hvisit⟩
  rintro ⟨deleted', t', hresult, herases⟩
  obtain ⟨deleted, hfold, hdeleted⟩ := detach_invalid h hvisit
  rw [eraseInvalid, hfold] at hresult
  obtain ⟨s, hs, hpair⟩ := Option.map_eq_some_iff.mp hresult
  obtain ⟨rfl, rfl⟩ := Prod.mk.inj hpair
  have hclosed : ∀ pid ∈ t.Invalid, ∀ child, Link t.parentOf pid child → child ∈ t.Invalid := by
    intro pid hpid child hlink
    have hremoved := (herases.removed_iff child).mpr ⟨pid, hpid, .single hlink⟩
    exact (hdeleted child).mp ((herases.mem_deleted_iff child).mpr hremoved)
  exact ((erase_invalid order h hdeleted hclosed).mp hs).1

instance : Decidable t.ChildrenFirst :=
  decidable_of_iff (∀ pid ∈ t.pids.toList, t.isInvalid pid = true → ∀ child ∈ t.pids.toList,
      t.parentOf child = some pid → t.isInvalid child = true ∧ child < pid) <| by
    have hpids : ∀ {q}, (t.processes q).isSome = true → q ∈ t.pids.toList := fun hq =>
      OrderedSet.mem_def.mp ((t.mem_pids _).mpr hq)
    simp only [ChildrenFirst, mem_invalid_iff]
    constructor
    · intro h pid hpid child hlink
      obtain ⟨q, hq, -⟩ := link_parentOf_iff.mp hlink
      exact h pid (hpids (isSome_of_mem_invalid (mem_invalid_iff.mpr hpid))) hpid child
        (hpids (by rw [hq, Option.isSome_some])) hlink
    · exact fun h pid _ hpid child _ hlink => h pid hpid child hlink

/-- Processes 10, 11 and 12, each the parent of the next. -/
def chain : ProcessTree :=
  ((new chainFs 10).insert 10 chainFs 12 none).getD empty

theorem consistent_chain : chain.Consistent := by
  have hinsert : (new chainFs 10).step 10 (.insert chainFs 12 none) = some chain := rfl
  exact (consistent_new chainFs 10).step 10 hinsert

/-- Some of the first processes of the chain are left in `/proc`. -/
def firstFs (last : Pid) : ProcFs where
  stat pid := if pid ≤ last then chainFs.stat pid else none
  pids := chainFs.pids
  mem_pids pid parent h := by
    split_ifs at h
    exact chainFs.mem_pids pid parent h
  acyclic := by
    refine chainFs.acyclic.mono fun parent pid hlink => ?_
    rw [Link] at hlink ⊢
    split_ifs at hlink
    exact hlink

/-- Only the last process of the chain is gone. -/
theorem erasesInvalid_iff_leaf :
    ∃ deleted t', (chain.refresh (firstFs 11)).eraseInvalid ascending [12, 10, 11] =
      some (deleted, t') ∧ ErasesInvalid (chain.refresh (firstFs 11)) deleted t' := by
  refine (erasesInvalid_iff ascending (consistent_chain.refresh _) ?_).mpr ?_
  · decide
  · decide

/-- If process 11 is gone with its child 12, its link is read after it has been erased. -/
theorem not_erasesInvalid :
    ¬ ∀ (t : ProcessTree) (order : ChildOrder) (visit : List Pid), t.Consistent →
      visit.Perm t.pids.toList →
      ∃ deleted t', t.eraseInvalid order visit = some (deleted, t') ∧
        ErasesInvalid t deleted t' := by
  intro h
  obtain ⟨deleted, t', hresult, -⟩ := h (chain.refresh (firstFs 10)) ascending [10, 11, 12]
    (consistent_chain.refresh _) (by decide)
  have hnone : (chain.refresh (firstFs 10)).eraseInvalid ascending [10, 11, 12] = none := rfl
  rw [hnone] at hresult
  cases hresult

end ProcessTree

end Thanos
