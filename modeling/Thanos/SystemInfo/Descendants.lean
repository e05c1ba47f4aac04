import Thanos.Library.Preorder
import Thanos.SystemInfo.ProcessLinks

/-!
# Children, grandchildren, and so on

`all_children` walks through the children of a process and of its children, and `get_children`
collects their identifiers. It is called for the process of the program that is observed, all
processes of the tree being below it (`Rooted`).

* **Descendants** (`allChildren_spec`): on a consistent tree the walk ends, and lists every
  descendant once, in whatever order the maps of children are visited.
* **Roots** (`Grows.rooted`, `Rooted.restrict`): what is inserted below a process and what is
  left after some subtrees are erased is still below the root.
-/

namespace Thanos

namespace ProcessTree

/-- `all_children`. -/
def allChildren (t : ProcessTree) (order : ChildOrder) (pid : Pid) : Option (List Pid) :=
  preorder (fun pid => (t.processes pid).map fun p => order.visit pid p.children)
    (t.pids.size + 1) pid

/-- `retrieve`. -/
def retrieve (t : ProcessTree) (self : Pid) (fs : ProcFs) (pid : Pid) : Option ProcessTree :=
  match t.processes pid with
  | some _ => some t
  | none => t.insert self fs pid none

/-- `get_children`. -/
def getChildren (t : ProcessTree) (self : Pid) (fs : ProcFs) (order : ChildOrder) (pid : Pid) :
    Option (OrderedSet Pid × ProcessTree) :=
  (t.retrieve self fs pid).bind fun t =>
    (t.allChildren order pid).map fun children => (OrderedSet.insertMany ∅ children, t)

/-- `b` is a descendant of `a`. -/
def Descends (t : ProcessTree) (a b : Pid) : Prop :=
  Relation.TransGen (Link t.parentOf) a b

/-- Every process is the root or a descendant of it. -/
def Rooted (t : ProcessTree) (root : Pid) : Prop :=
  ∀ q, (t.processes q).isSome = true → Below t.parentOf root q

variable {t t' : ProcessTree} {pid q root : Pid} {p : ProcessNode}

theorem below_iff_descends : Below t.parentOf pid q ↔ q = pid ∨ t.Descends pid q :=
  Relation.reflTransGen_iff_eq_or_transGen

/-- A descendant is in the tree. -/
theorem isSome_of_descends (h : t.Descends pid q) : (t.processes q).isSome = true := by
  obtain ⟨parent, -, hlink⟩ := Relation.TransGen.tail'_iff.mp h
  obtain ⟨p, hp, -⟩ := link_parentOf_iff.mp hlink
  rw [hp, Option.isSome_some]

/-- The ancestors of a process are in the tree. -/
theorem Consistent.isSome_of_below (h : t.Consistent) (hbelow : Below t.parentOf pid q)
    (hq : (t.processes q).isSome = true) : (t.processes pid).isSome = true := by
  obtain rfl | ⟨child, hlink, -⟩ := below_iff.mp hbelow
  · exact hq
  · obtain ⟨p, hp, -⟩ := h.exists_of_link hlink
    rw [hp, Option.isSome_some]

/-- **Descendants.** -/
theorem allChildren_spec (order : ChildOrder) (h : t.Consistent)
    (hpid : (t.processes pid).isSome = true) :
    ∃ children, t.allChildren order pid = some children ∧ children.Nodup ∧
      ∀ q, q ∈ children ↔ t.Descends pid q := by
  refine preorder_spec h.acyclic (s := t.pids.toFinset) (fun b hb => ?_) (fun b c hlink => ?_) ?_
    (Nat.lt_succ_of_le numDescendants_le)
  · have hsome := (t.mem_pids b).mp (OrderedSet.mem_toFinset.mp hb)
    obtain ⟨p, hp⟩ := Option.isSome_iff_exists.mp hsome
    have hperm := order.perm b p.children
    refine ⟨order.visit b p.children, by simp only [hp, Option.map_some],
      hperm.nodup_iff.mpr (p.children.increasing.imp ne_of_lt), fun c => ?_⟩
    rw [hperm.mem_iff, ← OrderedSet.mem_def]
    exact h.mem_children_iff hp
  · obtain ⟨p, hp, -⟩ := link_parentOf_iff.mp hlink
    exact OrderedSet.mem_toFinset.mpr ((t.mem_pids c).mpr (by rw [hp, Option.isSome_some]))
  · exact OrderedSet.mem_toFinset.mpr ((t.mem_pids pid).mpr hpid)

theorem retrieve_of_isSome (self : Pid) (fs : ProcFs) (hpid : (t.processes pid).isSome = true) :
    t.retrieve self fs pid = some t := by
  obtain ⟨p, hp⟩ := Option.isSome_iff_exists.mp hpid
  rw [retrieve, hp]

theorem getChildren_spec (self : Pid) (fs : ProcFs) (order : ChildOrder) (h : t.Consistent)
    (hpid : (t.processes pid).isSome = true) :
    ∃ children, t.getChildren self fs order pid = some (children, t) ∧
      ∀ q, q ∈ children ↔ t.Descends pid q := by
  obtain ⟨children, heq, -, hmem⟩ := allChildren_spec order h hpid
  refine ⟨OrderedSet.insertMany ∅ children, ?_, fun q => ?_⟩
  · rw [getChildren, retrieve_of_isSome self fs hpid, Option.bind_some, heq, Option.map_some]
  · rw [← hmem]
    simp

/-! ### Roots -/

/-- Below a process of a rooted tree is below its root. -/
theorem Rooted.descends (h : t.Rooted root) (hq : (t.processes q).isSome = true) (hne : q ≠ root) :
    t.Descends root q :=
  (below_iff_descends.mp (h q hq)).resolve_left hne

theorem rooted_new (fs : ProcFs) (root : Pid) : (new fs root).Rooted root := by
  intro q hq
  by_cases hne : q = root
  · subst hne
    exact Relation.ReflTransGen.refl
  · simp [new, put_processes_of_ne hne, empty] at hq

theorem Rooted.descends_iff (hroot : t.Rooted root) (h : t.Consistent) :
    t.Descends root q ↔ q ≠ root ∧ (t.processes q).isSome = true := by
  constructor
  · intro hdescends
    refine ⟨?_, isSome_of_descends hdescends⟩
    rintro rfl
    exact h.acyclic q hdescends
  · exact fun ⟨hne, hq⟩ => hroot.descends hq hne

theorem Grows.parentOf_of_ne (hgrows : Grows t pid p t') (hq : q ≠ pid) :
    t'.parentOf q = t.parentOf q := by
  rw [parentOf, hgrows.others q hq, parentOf, Option.bind_map]
  refine congrArg (Option.bind _) (funext fun r => ?_)
  rw [Function.comp_apply]
  split_ifs <;> rfl

/-- **Roots**, where a process is inserted below another one. -/
theorem Grows.rooted (hgrows : Grows t pid p t') (hparent : ∃ parent, p.parent = some parent)
    (h : t.Rooted root) : t'.Rooted root := by
  -- a path in the old tree does not pass the new process
  have hold : ∀ q, (t.processes q).isSome = true → Below t'.parentOf root q := fun q hq => by
    refine Relation.ReflTransGen.mono (fun a b hlink => ?_) _ _ (h q hq)
    obtain ⟨r, hr, -⟩ := link_parentOf_iff.mp hlink
    rw [Link, hgrows.parentOf_of_ne (hgrows.ne_of_mem hr)]
    exact hlink
  intro q hq
  obtain ⟨r, hr⟩ := Option.isSome_iff_exists.mp hq
  obtain ⟨rfl, rfl⟩ | ⟨r', hr'⟩ := hgrows.mem_cases hr
  · obtain ⟨parent, hparent⟩ := hparent
    obtain ⟨s, hs⟩ := hgrows.parent_mem parent hparent
    have hlink : Link t'.parentOf parent q := link_parentOf_iff.mpr ⟨r, hr, hparent⟩
    exact Relation.ReflTransGen.tail (hold parent (by rw [hs, Option.isSome_some])) hlink
  · exact hold q (by rw [hr', Option.isSome_some])

/-- **Roots**, where subtrees are cut off. -/
theorem Rooted.restrict {keep : Set Pid} (h : t.Rooted root) (hkeep : t.ClosedUp keep) :
    (t.restrict keep).Rooted root := by
  intro q hq
  obtain ⟨r, hr⟩ := Option.isSome_iff_exists.mp hq
  obtain ⟨hmem, p, hp, -⟩ := exists_of_restrict hr
  exact (below_restrict_iff hkeep hmem).mpr (h q (by rw [hp, Option.isSome_some]))

theorem isSome_restrict {keep : Set Pid} :
    ((t.restrict keep).processes q).isSome = true ↔ (t.processes q).isSome = true ∧ q ∈ keep := by
  by_cases hq : q ∈ keep
  · rw [restrict_processes_of_mem hq, Option.isSome_map, and_iff_left hq]
  · simp [restrict_processes_of_notMem hq, hq]

theorem parentOf_refresh (fs : ProcFs) : (t.refresh fs).parentOf q = t.parentOf q := by
  rw [parentOf, refresh_processes, parentOf, Option.bind_map]
  exact congrArg (Option.bind _) (funext fun r => ProcessNode.update_parent)

theorem Rooted.refresh (h : t.Rooted root) (fs : ProcFs) : (t.refresh fs).Rooted root := by
  have hsame : (t.refresh fs).parentOf = t.parentOf := funext fun q => parentOf_refresh fs
  intro q hq
  rw [hsame]
  exact h q (by simpa [refresh_processes] using hq)

end ProcessTree

end Thanos
