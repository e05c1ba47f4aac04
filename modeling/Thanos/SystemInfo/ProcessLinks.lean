import Mathlib.Data.Set.Basic
import Thanos.Library.Run
import Thanos.SystemInfo.ProcessTree

/-!
# The links of the tree of processes

A tree is consistent if parents and children agree and no process is its own descendant. What
`erase` does to a consistent tree is to prune it: the processes outside of a subtree are kept,
with those of their children that are kept.

* **Pruning** (`Consistent.restrict`): a consistent tree stays so without some of its subtrees.
* **Erasure** (`erase_eq`): a process is removed with its descendants, whatever the order in
  which the children are visited.
* **Insertion** (`insert_spec`): a process is inserted with those of its ancestors that are
  missing.
* **Links** (`consistent_of_run`): every tree that is reached is consistent, and erasing from it
  removes a process with its descendants and leaves the other links alone.
-/

namespace Thanos

/-- The parent of a process, if it is in the tree and has one. -/
def ProcessTree.parentOf (t : ProcessTree) (pid : Pid) : Option Pid :=
  (t.processes pid).bind ProcessNode.parent

open Classical in
/-- What is left of a process if only some processes are kept. -/
noncomputable def ProcessNode.restrict (keep : Set Pid) (p : ProcessNode) : ProcessNode :=
  { p with children := p.children.filter fun child => decide (child ∈ keep) }

/-- A process with a child less. -/
def ProcessNode.dropChild (child : Pid) (p : ProcessNode) : ProcessNode :=
  { p with children := p.children.erase child }

/-- A process with a child more. -/
def ProcessNode.addChild (child : Pid) (p : ProcessNode) : ProcessNode :=
  { p with children := insert child p.children }

theorem ProcessNode.addChild_addChild {child : Pid} {p : ProcessNode} :
    (p.addChild child).addChild child = p.addChild child := by
  have hchildren : insert child (insert child p.children) = insert child p.children :=
    OrderedSet.ext_mem fun q => by simp
  exact congrArg (fun children => { p with children := children }) hchildren

/-- Where there is a parent to climb to, it is the one that `/proc` reports. -/
theorem ProcessNode.link_ppid {fs : ProcFs} {pid : Pid} {parent : Option Pid}
    (h : (ProcessNode.new fs pid parent).ppid ≠ 0) :
    Link fs.stat (ProcessNode.new fs pid parent).ppid pid := by
  unfold new at h ⊢
  rw [Link]
  rcases hstat : fs.stat pid with _ | ppid
  · simp [hstat] at h
  · rfl

namespace ProcessTree

open Classical in
/-- What is left of a tree if only some processes are kept. -/
noncomputable def restrict (t : ProcessTree) (keep : Set Pid) : ProcessTree where
  processes pid := if pid ∈ keep then (t.processes pid).map (.restrict keep) else none
  pids := t.pids.filter fun pid => decide (pid ∈ keep)
  mem_pids pid := by
    rw [OrderedSet.mem_filter, t.mem_pids, decide_eq_true_eq]
    split_ifs with h <;> simp [h]

/-- A process and its descendants. -/
def subtree (t : ProcessTree) (pid : Pid) : Set Pid :=
  {q | Below t.parentOf pid q}

/-- Parents and children agree, and no process is its own descendant. -/
structure Consistent (t : ProcessTree) : Prop where
  parent_lists : ∀ pid p parent, t.processes pid = some p → p.parent = some parent →
    ∃ q, t.processes parent = some q ∧ pid ∈ q.children
  child_links : ∀ pid p child, t.processes pid = some p → child ∈ p.children →
    ∃ q, t.processes child = some q ∧ q.parent = some pid
  acyclic : Acyclic t.parentOf

variable {t t' : ProcessTree} {pid parent child q : Pid} {p : ProcessNode} {keep keep' : Set Pid}

theorem ext_processes (h : t.processes = t'.processes) : t = t' := by
  cases t with
  | mk processes pids mem_pids =>
    cases t' with
    | mk processes' pids' mem_pids' =>
      obtain rfl : processes = processes' := h
      obtain rfl : pids = pids' := OrderedSet.ext_mem fun pid => by rw [mem_pids, mem_pids']
      rfl

theorem put_put {p' : ProcessNode} : (t.put pid p).put pid p' = t.put pid p' :=
  ext_processes (Function.update_idem ..)

theorem link_parentOf_iff :
    Link t.parentOf parent pid ↔ ∃ p, t.processes pid = some p ∧ p.parent = some parent :=
  Option.bind_eq_some_iff

/-- The children of a process are those that have it as their parent. -/
theorem Consistent.mem_children_iff (h : t.Consistent) (hp : t.processes pid = some p) :
    child ∈ p.children ↔ Link t.parentOf pid child := by
  rw [link_parentOf_iff]
  constructor
  · exact h.child_links pid p child hp
  · rintro ⟨q, hq, hparent⟩
    obtain ⟨p', hp', hmem⟩ := h.parent_lists child q pid hq hparent
    obtain rfl : p = p' := Option.some.inj (hp.symm.trans hp')
    exact hmem

/-- A process with children or descendants is in the tree. -/
theorem Consistent.exists_of_link (h : t.Consistent) (hlink : Link t.parentOf pid child) :
    ∃ p, t.processes pid = some p ∧ child ∈ p.children := by
  obtain ⟨q, hq, hparent⟩ := link_parentOf_iff.mp hlink
  exact h.parent_lists child q pid hq hparent

/-! ### Pruning -/

theorem restrict_processes_of_mem (hq : q ∈ keep) :
    (t.restrict keep).processes q = (t.processes q).map (.restrict keep) :=
  if_pos hq

theorem restrict_processes_of_notMem (hq : q ∉ keep) : (t.restrict keep).processes q = none :=
  if_neg hq

theorem exists_of_restrict {p' : ProcessNode} (hp : (t.restrict keep).processes q = some p') :
    q ∈ keep ∧ ∃ p, t.processes q = some p ∧ p.restrict keep = p' := by
  by_cases hq : q ∈ keep
  · rw [restrict_processes_of_mem hq] at hp
    exact ⟨hq, Option.map_eq_some_iff.mp hp⟩
  · rw [restrict_processes_of_notMem hq] at hp
    cases hp

theorem mem_restrict_children :
    child ∈ (p.restrict keep).children ↔ child ∈ p.children ∧ child ∈ keep := by
  simp [ProcessNode.restrict]

/-- Processes that differ in their children at most. -/
theorem restrict_eq_of_children {p' : ProcessNode} (hparent : p'.parent = p.parent)
    (hppid : p'.ppid = p.ppid) (hvalid : p'.valid = p.valid)
    (h : ∀ child, child ∈ p'.children ↔ child ∈ p.children ∧ child ∈ keep) :
    p' = p.restrict keep := by
  have hchildren : p'.children = (p.restrict keep).children :=
    OrderedSet.ext_mem fun child => by rw [h, mem_restrict_children]
  cases p'
  cases p
  simp only [ProcessNode.restrict] at *
  simp [hparent, hppid, hvalid, hchildren]

theorem restrict_parentOf_of_mem (hq : q ∈ keep) : (t.restrict keep).parentOf q = t.parentOf q := by
  rw [parentOf, restrict_processes_of_mem hq, parentOf, Option.bind_map]
  rfl

theorem link_of_link_restrict (hlink : Link (t.restrict keep).parentOf parent q) :
    Link t.parentOf parent q ∧ q ∈ keep := by
  by_cases hq : q ∈ keep
  · rw [Link, restrict_parentOf_of_mem hq] at hlink
    exact ⟨hlink, hq⟩
  · rw [Link, parentOf, restrict_processes_of_notMem hq] at hlink
    cases hlink

/-- Pruning twice is pruning once. -/
theorem restrict_restrict : (t.restrict keep).restrict keep' = t.restrict (keep ∩ keep') := by
  refine ext_processes (funext fun q => ?_)
  by_cases hq : q ∈ keep
  · by_cases hq' : q ∈ keep'
    · have hboth : q ∈ keep ∩ keep' := ⟨hq, hq'⟩
      rw [restrict_processes_of_mem hq', restrict_processes_of_mem hq,
        restrict_processes_of_mem hboth, Option.map_map]
      refine congrArg (Option.map · _) (funext fun p => ?_)
      refine restrict_eq_of_children rfl rfl rfl fun child => ?_
      rw [Function.comp_apply, mem_restrict_children, mem_restrict_children, Set.mem_inter_iff,
        and_assoc]
    · have hneither : q ∉ keep ∩ keep' := fun h => hq' h.2
      rw [restrict_processes_of_notMem hq', restrict_processes_of_notMem hneither]
  · have hneither : q ∉ keep ∩ keep' := fun h => hq h.1
    rw [restrict_processes_of_notMem hneither]
    by_cases hq' : q ∈ keep'
    · rw [restrict_processes_of_mem hq', restrict_processes_of_notMem hq, Option.map_none]
    · exact restrict_processes_of_notMem hq'

/-- Nothing changes if every process is kept. -/
theorem Consistent.restrict_eq_self (h : t.Consistent)
    (hkeep : ∀ q, (t.processes q).isSome = true → q ∈ keep) : t.restrict keep = t := by
  refine ext_processes (funext fun q => ?_)
  rcases hq : t.processes q with _ | r
  · by_cases hmem : q ∈ keep
    · rw [restrict_processes_of_mem hmem, hq, Option.map_none]
    · exact restrict_processes_of_notMem hmem
  · have hsame : r = r.restrict keep := by
      refine restrict_eq_of_children rfl rfl rfl fun child => (and_iff_left_of_imp ?_).symm
      intro hchild
      obtain ⟨s, hs, -⟩ := h.child_links q r child hq hchild
      exact hkeep child (by rw [hs, Option.isSome_some])
    rw [restrict_processes_of_mem (hkeep q (by rw [hq, Option.isSome_some])), hq, Option.map_some,
      ← hsame]

/-- The processes that are kept are kept with their parents. -/
def ClosedUp (t : ProcessTree) (keep : Set Pid) : Prop :=
  ∀ parent q, Link t.parentOf parent q → q ∈ keep → parent ∈ keep

/-- **Pruning.** -/
theorem Consistent.restrict (h : t.Consistent) (hkeep : t.ClosedUp keep) :
    (t.restrict keep).Consistent where
  parent_lists pid p' parent hp' hparent := by
    obtain ⟨hpid, p, hp, rfl⟩ := exists_of_restrict hp'
    obtain ⟨q, hq, hmem⟩ := h.parent_lists pid p parent hp hparent
    have hlink : Link t.parentOf parent pid := link_parentOf_iff.mpr ⟨p, hp, hparent⟩
    refine ⟨q.restrict keep, ?_, mem_restrict_children.mpr ⟨hmem, hpid⟩⟩
    rw [restrict_processes_of_mem (hkeep parent pid hlink hpid), hq, Option.map_some]
  child_links pid p' child hp' hchild := by
    obtain ⟨-, p, hp, rfl⟩ := exists_of_restrict hp'
    obtain ⟨hmem, hkept⟩ := mem_restrict_children.mp hchild
    obtain ⟨q, hq, hparent⟩ := h.child_links pid p child hp hmem
    refine ⟨q.restrict keep, ?_, hparent⟩
    rw [restrict_processes_of_mem hkept, hq, Option.map_some]
  acyclic := h.acyclic.mono fun _ _ hlink => (link_of_link_restrict hlink).1

theorem below_restrict_iff (hkeep : t.ClosedUp keep) (hq : q ∈ keep) :
    Below (t.restrict keep).parentOf pid q ↔ Below t.parentOf pid q :=
  below_iff_of_pruned hkeep (fun _ hb => restrict_parentOf_of_mem hb)
    (fun _ _ hlink => (link_of_link_restrict hlink).1) hq

/-! ### Erasure -/

theorem closedUp_compl_subtree : t.ClosedUp (t.subtree pid)ᶜ :=
  fun _ _ hlink hq hparent => hq (Relation.ReflTransGen.tail hparent hlink)

/-- The processes that are in none of several subtrees. -/
def outside (t : ProcessTree) (roots : List Pid) : Set Pid :=
  {q | ∀ root ∈ roots, ¬ Below t.parentOf root q}

theorem mem_outside {roots : List Pid} :
    q ∈ t.outside roots ↔ ∀ root ∈ roots, ¬ Below t.parentOf root q :=
  Iff.rfl

theorem closedUp_outside {roots : List Pid} : t.ClosedUp (t.outside roots) :=
  fun _ _ hlink hq root hroot hparent => hq root hroot (Relation.ReflTransGen.tail hparent hlink)

theorem Consistent.restrict_outside_nil (h : t.Consistent) : t.restrict (t.outside []) = t :=
  h.restrict_eq_self fun _ _ _ hroot => absurd hroot List.not_mem_nil

/-- Outside of a subtree is outside of the subtrees of the children. -/
theorem Consistent.notMem_subtree_iff (h : t.Consistent) (hp : t.processes pid = some p)
    {roots : List Pid} (hroots : ∀ child, child ∈ roots ↔ child ∈ p.children) :
    q ∉ t.subtree pid ↔ q ≠ pid ∧ q ∈ t.outside roots := by
  change ¬ Below t.parentOf pid q ↔ _
  rw [below_iff, not_or, mem_outside]
  simp only [hroots, h.mem_children_iff hp, not_exists, not_and]

/-- Erasing one more subtree. -/
theorem restrict_outside_append {roots : List Pid} :
    (t.restrict (t.outside roots)).restrict
        ((t.restrict (t.outside roots)).subtree child)ᶜ =
      t.restrict (t.outside (roots ++ [child])) := by
  rw [restrict_restrict]
  congr 1
  ext q
  have hbelow : q ∈ t.outside roots →
      (Below (t.restrict (t.outside roots)).parentOf child q ↔ Below t.parentOf child q) :=
    fun hq => below_restrict_iff closedUp_outside hq
  rw [mem_outside, List.forall_mem_append, List.forall_mem_singleton]
  exact and_congr_right fun hq => not_congr (hbelow hq)

/-- A child that is none is dropped without effect. -/
theorem Consistent.map_dropChild (h : t.Consistent) (hlink : ¬ Link t.parentOf q pid) :
    (t.processes q).map (.dropChild pid) = t.processes q := by
  rcases hq : t.processes q with _ | r
  · rfl
  · have hmem : pid ∉ r.children := fun hmem => hlink ((h.mem_children_iff hq).mp hmem)
    have hchildren : r.children.erase pid = r.children := OrderedSet.ext_mem fun child => by
      rw [OrderedSet.mem_erase, and_iff_right_iff_imp]
      exact fun hchild heq => hmem (heq ▸ hchild)
    rw [Option.map_some, ProcessNode.dropChild, hchildren]

/-- Without a subtree, the other processes are as they are without the subtrees of the children,
except for the children of the parent. -/
theorem Consistent.restrict_processes (h : t.Consistent) (hp : t.processes pid = some p)
    {roots : List Pid} (hroots : ∀ child, child ∈ roots ↔ child ∈ p.children) (hq : q ≠ pid) :
    (t.restrict (t.subtree pid)ᶜ).processes q =
      ((t.restrict (t.outside roots)).processes q).map (.dropChild pid) := by
  have hkept : ∀ q, q ∈ (t.subtree pid)ᶜ ↔ q ≠ pid ∧ q ∈ t.outside roots :=
    fun q => h.notMem_subtree_iff hp hroots
  by_cases houtside : q ∈ t.outside roots
  · have hmem : q ∈ (t.subtree pid)ᶜ := (hkept q).mpr ⟨hq, houtside⟩
    rw [restrict_processes_of_mem houtside, restrict_processes_of_mem hmem, Option.map_map]
    refine congrArg (Option.map · _) (funext fun r => ?_)
    have hsame : (r.restrict (t.outside roots)).dropChild pid = r.restrict (t.subtree pid)ᶜ := by
      refine restrict_eq_of_children rfl rfl rfl fun child => ?_
      rw [ProcessNode.dropChild, OrderedSet.mem_erase, mem_restrict_children, hkept]
      tauto
    exact hsame.symm
  · have hnot : q ∉ (t.subtree pid)ᶜ := fun hmem => houtside ((hkept q).mp hmem).2
    rw [restrict_processes_of_notMem houtside, restrict_processes_of_notMem hnot, Option.map_none]

/-- What is left to do after the children have been erased. -/
theorem erase_last (h : t.Consistent) (hp : t.processes pid = some p) {roots : List Pid}
    (hroots : ∀ child, child ∈ roots ↔ child ∈ p.children) :
    (t.restrict (t.outside roots)).removeSelf pid = some (t.restrict (t.subtree pid)ᶜ) := by
  have hconsistent : (t.restrict (t.outside roots)).Consistent := h.restrict closedUp_outside
  have hpid : pid ∈ t.outside roots := by
    intro child hchild
    exact h.acyclic.not_below_parent ((h.mem_children_iff hp).mp ((hroots child).mp hchild))
  have hself : (t.restrict (t.subtree pid)ᶜ).processes pid = none :=
    restrict_processes_of_notMem fun hnot => hnot Relation.ReflTransGen.refl
  have hprocess : (t.restrict (t.outside roots)).processes pid =
      some (p.restrict (t.outside roots)) := by
    rw [restrict_processes_of_mem hpid, hp, Option.map_some]
  have hlink : ∀ q, Link (t.restrict (t.outside roots)).parentOf q pid ↔ p.parent = some q := by
    intro q
    rw [Link, parentOf, hprocess]
    rfl
  have hsame : (p.restrict (t.outside roots)).parent = p.parent := rfl
  rw [removeSelf, hprocess, Option.bind_some, hsame]
  rcases hparent : p.parent with _ | parent
  · refine congrArg some (ext_processes (funext fun q => ?_))
    by_cases hq : q = pid
    · rw [hq, hself, remove_processes_self]
    · rw [remove_processes_of_ne hq, h.restrict_processes hp hroots hq,
        hconsistent.map_dropChild (by simp [hlink, hparent])]
  · obtain ⟨r, hr, -⟩ := hconsistent.exists_of_link ((hlink parent).mpr hparent)
    simp only [removeChildren, hr, Option.map_some]
    refine congrArg some (ext_processes (funext fun q => ?_))
    by_cases hq : q = pid
    · rw [hq, hself, remove_processes_self]
    · rw [remove_processes_of_ne hq, h.restrict_processes hp hroots hq]
      by_cases heq : q = parent
      · rw [heq, hr, put_processes_self]
        rfl
      · rw [put_processes_of_ne heq,
          hconsistent.map_dropChild (by simp [hlink, hparent, Ne.symm heq])]

/-- A process that is not in the tree has no descendants there. -/
theorem Consistent.restrict_of_none (h : t.Consistent) (hp : t.processes pid = none) :
    t.restrict (t.subtree pid)ᶜ = t := by
  refine h.restrict_eq_self fun q hq hbelow => ?_
  obtain rfl | ⟨child, hlink, -⟩ := below_iff.mp hbelow
  · simp [hp] at hq
  · obtain ⟨p, hp', -⟩ := h.exists_of_link hlink
    simp [hp] at hp'

/-- The loop over the children, if every call does what it should. -/
theorem erase_loop {order : ChildOrder} {rank : Pid → ℕ} {fuel : ℕ} (h : t.Consistent)
    (hrank : ∀ parent child, Link t.parentOf parent child → rank child < rank parent)
    (ih : ∀ {t pid}, t.Consistent →
      (∀ parent child, Link t.parentOf parent child → rank child < rank parent) →
      rank pid < fuel → eraseFuel order fuel t pid = some (t.restrict (t.subtree pid)ᶜ))
    {roots children : List Pid} (hnodup : (roots ++ children).Nodup)
    (hchildren : ∀ child ∈ roots ++ children, Link t.parentOf pid child)
    (hfuel : rank pid < fuel + 1) :
    children.foldlM (fun t child =>
        if (t.processes child).isSome then eraseFuel order fuel t child else none)
      (t.restrict (t.outside roots)) = some (t.restrict (t.outside (roots ++ children))) := by
  induction children generalizing roots with
  | nil => rw [List.append_nil]; rfl
  | cons child children ihl =>
    have hconsistent : (t.restrict (t.outside roots)).Consistent := h.restrict closedUp_outside
    have hlink : Link t.parentOf pid child := hchildren child (by simp)
    -- the children that have been erased are siblings
    have houtside : child ∈ t.outside roots := by
      intro root hroot
      have hne : child ≠ root := by
        rintro rfl
        exact (List.nodup_append.mp hnodup).2.2 child hroot child List.mem_cons_self rfl
      exact h.acyclic.not_below_sibling (hchildren root (List.mem_append_left _ hroot)) hlink hne
    obtain ⟨r, hr, -⟩ := link_parentOf_iff.mp hlink
    have hprocess : (t.restrict (t.outside roots)).processes child =
        some (r.restrict (t.outside roots)) := by
      rw [restrict_processes_of_mem houtside, hr, Option.map_some]
    have hless : rank child < fuel := by
      have hlt := hrank pid child hlink
      omega
    have hcall := ih hconsistent
      (fun parent child hlink => hrank parent child (link_of_link_restrict hlink).1) hless
    have happend : roots ++ child :: children = roots ++ [child] ++ children := by simp
    rw [happend] at hnodup hchildren
    rw [List.foldlM_cons, hprocess, Option.isSome_some, if_pos rfl, hcall, Option.bind_eq_bind,
      Option.bind_some, restrict_outside_append, happend]
    exact ihl hnodup hchildren

/-- **Erasure**, as deep as the tree may be. -/
theorem eraseFuel_eq (order : ChildOrder) (rank : Pid → ℕ) (h : t.Consistent)
    (hrank : ∀ parent child, Link t.parentOf parent child → rank child < rank parent) {fuel : ℕ}
    (hfuel : rank pid < fuel) :
    eraseFuel order fuel t pid = some (t.restrict (t.subtree pid)ᶜ) := by
  induction fuel generalizing t pid with
  | zero => omega
  | succ fuel ih =>
    rw [eraseFuel]
    rcases hp : t.processes pid with _ | p
    · rw [h.restrict_of_none hp]
    · have hperm := order.perm pid p.children
      have hroots : ∀ child, child ∈ order.visit pid p.children ↔ child ∈ p.children :=
        fun child => hperm.mem_iff
      have hnodup : (order.visit pid p.children).Nodup :=
        hperm.nodup_iff.mpr (p.children.increasing.imp ne_of_lt)
      have hchildren : ∀ child ∈ order.visit pid p.children, Link t.parentOf pid child :=
        fun child hchild => (h.mem_children_iff hp).mp ((hroots child).mp hchild)
      rw [← List.nil_append (order.visit pid p.children)] at hnodup hchildren
      have hloop := erase_loop h hrank ih hnodup hchildren hfuel
      rw [h.restrict_outside_nil, List.nil_append] at hloop
      simp only [hloop, Option.bind_some]
      exact erase_last h hp hroots

/-- **Erasure.** -/
theorem erase_eq (order : ChildOrder) (h : t.Consistent) :
    t.erase order pid = some (t.restrict (t.subtree pid)ᶜ) := by
  refine eraseFuel_eq order (numDescendants t.parentOf t.pids.toFinset) h
    (fun parent child hlink => numDescendants_lt h.acyclic hlink ?_)
    (Nat.lt_succ_of_le numDescendants_le)
  obtain ⟨p, hp, -⟩ := h.exists_of_link hlink
  exact OrderedSet.mem_toFinset.mpr ((t.mem_pids parent).mpr (by rw [hp, Option.isSome_some]))

/-- `t'` is `t` without a process and its descendants; of the other processes only the parent has
a child less. -/
structure ErasesSubtree (t : ProcessTree) (pid : Pid) (t' : ProcessTree) : Prop where
  removed : ∀ q, Below t.parentOf pid q → t'.processes q = none
  unchanged : ∀ q, ¬ Below t.parentOf pid q →
    t'.processes q = (t.processes q).map fun p => { p with children := p.children.erase pid }

theorem erasesSubtree_restrict (h : t.Consistent) :
    ErasesSubtree t pid (t.restrict (t.subtree pid)ᶜ) where
  removed q hbelow := restrict_processes_of_notMem fun hnot => hnot hbelow
  unchanged q hnot := by
    have hmem : q ∈ (t.subtree pid)ᶜ := hnot
    rw [restrict_processes_of_mem hmem]
    rcases hq : t.processes q with _ | r
    · rfl
    · have hsame : r.dropChild pid = r.restrict (t.subtree pid)ᶜ := by
        refine restrict_eq_of_children rfl rfl rfl fun child => ?_
        rw [ProcessNode.dropChild, OrderedSet.mem_erase, and_comm]
        refine and_congr_right fun hchild => not_congr ⟨?_, fun hbelow => ?_⟩
        · rintro rfl
          exact Relation.ReflTransGen.refl
        · -- a child in the subtree is its root, because the parent is outside
          by_contra hne
          exact hnot (Below.of_ne hbelow ((h.mem_children_iff hq).mp hchild) hne)
      exact congrArg some hsame.symm

/-! ### Insertion -/

/-- `t'` is `t` with a new process, which is a child of its parent. -/
structure Grows (t : ProcessTree) (pid : Pid) (p : ProcessNode) (t' : ProcessTree) : Prop where
  new : t.processes pid = none
  parent_mem : ∀ parent, p.parent = some parent → ∃ r, t.processes parent = some r
  children_eq : p.children = ∅
  self : t'.processes pid = some p
  others : ∀ q, q ≠ pid → t'.processes q =
    (t.processes q).map fun r => if p.parent = some q then r.addChild pid else r

namespace Grows

variable (hgrows : Grows t pid p t')
include hgrows

theorem ne_of_mem {r : ProcessNode} (hq : t.processes q = some r) : q ≠ pid := by
  rintro rfl
  simp [hgrows.new] at hq

/-- The processes that were there before keep their parent and their children. -/
theorem exists_of_mem {r : ProcessNode} (hq : t.processes q = some r) :
    ∃ r', t'.processes q = some r' ∧ r'.parent = r.parent ∧
      ∀ child, child ∈ r'.children ↔ child = pid ∧ p.parent = some q ∨ child ∈ r.children := by
  rw [hgrows.others q (hgrows.ne_of_mem hq), hq, Option.map_some]
  by_cases hparent : p.parent = some q
  · exact ⟨r.addChild pid, by rw [if_pos hparent], rfl, fun child => by
      simp [ProcessNode.addChild, hparent]⟩
  · exact ⟨r, by rw [if_neg hparent], rfl, fun child => by simp [hparent]⟩

/-- A process was there before, or it is the new one. -/
theorem mem_cases {r' : ProcessNode} (hq : t'.processes q = some r') :
    q = pid ∧ r' = p ∨ ∃ r, t.processes q = some r := by
  by_cases heq : q = pid
  · rw [heq, hgrows.self] at hq
    exact .inl ⟨heq, (Option.some.inj hq).symm⟩
  · rw [hgrows.others q heq] at hq
    obtain ⟨r, hr, -⟩ := Option.map_eq_some_iff.mp hq
    exact .inr ⟨r, hr⟩

/-- **Insertion** of a process that has no children yet. -/
theorem consistent (h : t.Consistent) : t'.Consistent where
  parent_lists q r' parent hq hparent := by
    obtain ⟨rfl, rfl⟩ | ⟨r, hr⟩ := hgrows.mem_cases hq
    · obtain ⟨s, hs⟩ := hgrows.parent_mem parent hparent
      obtain ⟨s', hs', -, hchildren⟩ := hgrows.exists_of_mem hs
      exact ⟨s', hs', (hchildren q).mpr (.inl ⟨rfl, hparent⟩)⟩
    · obtain ⟨r'', hr'', hsame, -⟩ := hgrows.exists_of_mem hr
      obtain rfl : r' = r'' := Option.some.inj (hq.symm.trans hr'')
      obtain ⟨s, hs, hmem⟩ := h.parent_lists q r parent hr (hsame ▸ hparent)
      obtain ⟨s', hs', -, hchildren⟩ := hgrows.exists_of_mem hs
      exact ⟨s', hs', (hchildren q).mpr (.inr hmem)⟩
  child_links q r' child hq hchild := by
    obtain ⟨rfl, rfl⟩ | ⟨r, hr⟩ := hgrows.mem_cases hq
    · rw [hgrows.children_eq] at hchild
      exact absurd hchild OrderedSet.notMem_empty
    · obtain ⟨r'', hr'', -, hchildren⟩ := hgrows.exists_of_mem hr
      obtain rfl : r' = r'' := Option.some.inj (hq.symm.trans hr'')
      obtain ⟨rfl, hparent⟩ | hmem := (hchildren child).mp hchild
      · exact ⟨p, hgrows.self, hparent⟩
      · obtain ⟨s, hs, hparent⟩ := h.child_links q r child hr hmem
        obtain ⟨s', hs', hsame, -⟩ := hgrows.exists_of_mem hs
        exact ⟨s', hs', hsame.trans hparent⟩
  acyclic := by
    refine h.acyclic.of_leaf (p := pid) (fun q hq => ?_) fun q hlink => ?_
    · rw [parentOf, hgrows.others q hq, parentOf, Option.bind_map]
      refine congrArg (Option.bind _) (funext fun r => ?_)
      rw [Function.comp_apply]
      split_ifs <;> rfl
    · -- the new process would have been in the tree before
      obtain ⟨r', hr', hparent⟩ := link_parentOf_iff.mp hlink
      obtain ⟨rfl, rfl⟩ | ⟨r, hr⟩ := hgrows.mem_cases hr'
      · obtain ⟨s, hs⟩ := hgrows.parent_mem q hparent
        exact hgrows.ne_of_mem hs rfl
      · obtain ⟨r'', hr'', hsame, -⟩ := hgrows.exists_of_mem hr
        obtain rfl : r' = r'' := Option.some.inj (hr'.symm.trans hr'')
        obtain ⟨s, hs, -⟩ := h.parent_lists q r pid hr (hsame ▸ hparent)
        exact hgrows.ne_of_mem hs rfl

end Grows

theorem link_of_none (hnew : t.processes pid = none) (hparent : p.parent = none)
    (hchildren : p.children = ∅) :
    ∃ t', t.link pid p none = some t' ∧ Grows t pid p t' := by
  refine ⟨t.put pid p, by rw [link, register, hnew]; rfl, hnew, by simp [hparent], hchildren,
    put_processes_self, fun q hq => ?_⟩
  rw [put_processes_of_ne hq, hparent]
  simp

theorem link_of_some {r : ProcessNode} (hnew : t.processes pid = none)
    (hr : t.processes parent = some r) (hchildren : p.children = ∅) :
    ∃ t', t.link pid p (some parent) = some t' ∧
      Grows t pid { p with parent := some parent } t' := by
  have hne : pid ≠ parent := by
    rintro rfl
    simp [hnew] at hr
  refine ⟨(t.put parent (r.addChild pid)).put pid { p with parent := some parent }, ?_, hnew, ?_,
    hchildren, put_processes_self, fun q hq => ?_⟩
  · rw [link, addChildren, hr, Option.map_some, Option.bind_some, register, put_processes_of_ne hne,
      hnew]
    rfl
  · rintro parent' heq
    obtain rfl := Option.some.inj heq
    exact ⟨r, hr⟩
  · rw [put_processes_of_ne hq]
    by_cases heq : q = parent
    · subst heq
      simp [hr]
    · rw [put_processes_of_ne heq]
      simp [Ne.symm heq]

/-- What the constructor does to the parent is done again by `insert`. -/
theorem construct_bind_link {r : ProcessNode} (hr : t.processes parent = some r) :
    (t.construct p pid (some parent)).bind (fun t => t.link pid p (some parent)) =
      t.link pid p (some parent) := by
  have hadd : t.addChildren parent pid = some (t.put parent (r.addChild pid)) := by
    rw [addChildren, hr, Option.map_some]
    rfl
  have hagain : (t.put parent (r.addChild pid)).addChildren parent pid =
      t.addChildren parent pid := by
    rw [hadd, addChildren, put_processes_self, Option.map_some, put_put]
    exact congrArg (fun r => some (t.put parent r)) ProcessNode.addChild_addChild
  rw [construct]
  split_ifs
  · rw [hadd, Option.bind_some, link, hagain, link]
  · rfl

/-- `t'` is `t` with a process and those of its ancestors that were missing. -/
structure Inserts (fs : ProcFs) (t : ProcessTree) (pid : Pid) (t' : ProcessTree) : Prop where
  consistent : t'.Consistent
  mem : ∃ p, t'.processes pid = some p
  mem_cases : ∀ q p, t'.processes q = some p →
    (∃ r, t.processes q = some r) ∨ Below fs.stat q pid

theorem Grows.inserts (hgrows : Grows t pid p t') (h : t.Consistent) (fs : ProcFs) :
    Inserts fs t pid t' where
  consistent := hgrows.consistent h
  mem := ⟨p, hgrows.self⟩
  mem_cases q r hq := by
    obtain ⟨rfl, -⟩ | hold := hgrows.mem_cases hq
    · exact .inr Relation.ReflTransGen.refl
    · exact .inl hold

theorem Inserts.of_mem (h : t.Consistent) (fs : ProcFs) (hp : t.processes pid = some p) :
    Inserts fs t pid t where
  consistent := h
  mem := ⟨p, hp⟩
  mem_cases _ r hq := .inl ⟨r, hq⟩

/-- A process is added below its parent, after the parent has been inserted. -/
theorem climb {fs : ProcFs} {insertParent : Option ProcessTree} (h : t.Consistent)
    (hnew : t.processes pid = none) (hppid : (ProcessNode.new fs pid none).ppid ≠ 0)
    (hinsert : t.processes (ProcessNode.new fs pid none).ppid = none →
      ∃ t', insertParent = some t' ∧ Inserts fs t (ProcessNode.new fs pid none).ppid t') :
    ∃ t', (match t.processes (ProcessNode.new fs pid none).ppid with
      | some _ => t.link pid (.new fs pid none) (some (ProcessNode.new fs pid none).ppid)
      | none => insertParent.bind fun t =>
        t.link pid (.new fs pid none) (some (ProcessNode.new fs pid none).ppid)) = some t' ∧
      Inserts fs t pid t' := by
  have hlink := ProcessNode.link_ppid hppid
  obtain ⟨t₁, hinserts, heq⟩ : ∃ t₁, Inserts fs t (ProcessNode.new fs pid none).ppid t₁ ∧
      (match t.processes (ProcessNode.new fs pid none).ppid with
        | some _ => t.link pid (.new fs pid none) (some (ProcessNode.new fs pid none).ppid)
        | none => insertParent.bind fun t =>
          t.link pid (.new fs pid none) (some (ProcessNode.new fs pid none).ppid)) =
        t₁.link pid (.new fs pid none) (some (ProcessNode.new fs pid none).ppid) := by
    cases hparent : t.processes (ProcessNode.new fs pid none).ppid with
    | some r => exact ⟨t, .of_mem h fs hparent, rfl⟩
    | none =>
      obtain ⟨t₁, hcall, hinserts⟩ := hinsert hparent
      exact ⟨t₁, hinserts, by rw [hcall]; rfl⟩
  -- climbing does not lead back to the process
  have hnew' : t₁.processes pid = none := by
    by_contra hsome
    obtain ⟨p, hp⟩ := Option.ne_none_iff_exists'.mp hsome
    obtain ⟨r, hr⟩ | hbelow := hinserts.mem_cases pid p hp
    · simp [hnew] at hr
    · exact fs.acyclic.not_below_parent hlink hbelow
  obtain ⟨r, hr⟩ := hinserts.mem
  obtain ⟨t', hlinked, hgrows⟩ := link_of_some (p := .new fs pid none) hnew' hr rfl
  have hinserts' := hgrows.inserts hinserts.consistent fs
  refine ⟨t', heq.trans hlinked, hinserts'.consistent, hinserts'.mem, fun q p hq => ?_⟩
  obtain ⟨s, hs⟩ | hbelow := hinserts'.mem_cases q p hq
  · exact (hinserts.mem_cases q s hs).imp_right fun hbelow =>
      Relation.ReflTransGen.tail hbelow hlink
  · exact .inr hbelow

/-- **Insertion**, as far as there are processes to climb. -/
theorem insertFuel_spec (self : Pid) (fs : ProcFs) (h : t.Consistent) (parent : Option Pid)
    (hparent : ∀ q, parent = some q → ∃ r, t.processes q = some r) {fuel : ℕ}
    (hfuel : numAncestors fs.stat fs.pids.toFinset pid < fuel) :
    ∃ t', insertFuel self fs fuel t pid parent = some t' ∧ Inserts fs t pid t' := by
  induction fuel generalizing t pid parent with
  | zero => omega
  | succ fuel ih =>
    cases hnew : t.processes pid with
    | some p => exact ⟨t, by rw [insertFuel, hnew], .of_mem h fs hnew⟩
    | none =>
      cases parent with
      | some parent =>
        obtain ⟨r, hr⟩ := hparent parent rfl
        obtain ⟨t', hlink, hgrows⟩ :=
          link_of_some (p := .new fs pid (some parent)) hnew hr rfl
        refine ⟨t', ?_, hgrows.inserts h fs⟩
        rw [insertFuel, hnew]
        simp only [reduceCtorEq, and_false, if_false]
        rw [construct_bind_link hr, hlink]
      | none =>
        rw [insertFuel, hnew]
        simp only [construct, Option.bind_some, and_true]
        split_ifs with hclimb
        · have hlink := ProcessNode.link_ppid hclimb.2
          have hmem : pid ∈ fs.pids.toFinset :=
            OrderedSet.mem_toFinset.mpr (fs.mem_pids pid _ hlink)
          have hless := numAncestors_lt fs.acyclic hlink hmem
          exact climb h hnew hclimb.2 fun _ => ih h none (by simp) (by omega)
        · obtain ⟨t', hlink, hgrows⟩ := link_of_none (p := .new fs pid none) hnew rfl rfl
          exact ⟨t', hlink, hgrows.inserts h fs⟩

/-- **Insertion.** -/
theorem insert_spec (self : Pid) (fs : ProcFs) (h : t.Consistent) (parent : Option Pid)
    (hparent : ∀ q, parent = some q → ∃ r, t.processes q = some r) :
    ∃ t', t.insert self fs pid parent = some t' ∧ Inserts fs t pid t' :=
  insertFuel_spec self fs h parent hparent (Nat.lt_succ_of_le numAncestors_le)

/-! ### Updates -/

theorem refresh_processes (fs : ProcFs) :
    (t.refresh fs).processes q = (t.processes q).map (.update fs q) :=
  rfl

theorem Consistent.refresh (h : t.Consistent) (fs : ProcFs) : (t.refresh fs).Consistent where
  parent_lists pid p' parent hp' hparent := by
    obtain ⟨p, hp, rfl⟩ := Option.map_eq_some_iff.mp hp'
    rw [ProcessNode.update_parent] at hparent
    obtain ⟨q, hq, hmem⟩ := h.parent_lists pid p parent hp hparent
    exact ⟨q.update fs parent, by rw [refresh_processes, hq, Option.map_some],
      by rwa [ProcessNode.update_children]⟩
  child_links pid p' child hp' hchild := by
    obtain ⟨p, hp, rfl⟩ := Option.map_eq_some_iff.mp hp'
    rw [ProcessNode.update_children] at hchild
    obtain ⟨q, hq, hparent⟩ := h.child_links pid p child hp hchild
    exact ⟨q.update fs child, by rw [refresh_processes, hq, Option.map_some],
      by rwa [ProcessNode.update_parent]⟩
  acyclic := by
    refine h.acyclic.mono fun parent q hlink => ?_
    obtain ⟨r', hr', hparent⟩ := link_parentOf_iff.mp hlink
    obtain ⟨r, hr, rfl⟩ := Option.map_eq_some_iff.mp hr'
    rw [ProcessNode.update_parent] at hparent
    exact link_parentOf_iff.mpr ⟨r, hr, hparent⟩

/-- Several processes are erased with their descendants, in whatever order. -/
theorem foldlM_erase (order : ChildOrder) (h : t.Consistent) (roots pids : List Pid) :
    pids.foldlM (fun t pid => t.erase order pid) (t.restrict (t.outside roots)) =
      some (t.restrict (t.outside (roots ++ pids))) := by
  induction pids generalizing roots with
  | nil => rw [List.append_nil]; rfl
  | cons pid pids ih =>
    have happend : roots ++ pid :: pids = roots ++ [pid] ++ pids := by simp
    rw [List.foldlM_cons, erase_eq order (h.restrict closedUp_outside), Option.bind_eq_bind,
      Option.bind_some, restrict_outside_append, happend]
    exact ih _

/-- **Updates** erase the processes that cannot be read, with their descendants. -/
theorem update_eq (fs : ProcFs) (order : ChildOrder) (h : t.Consistent) :
    t.update fs order = some (decide ((t.procsToErase fs).size = 0),
      (t.refresh fs).restrict ((t.refresh fs).outside (t.procsToErase fs).toList)) := by
  have hrefresh := h.refresh fs
  have herased := foldlM_erase order hrefresh [] (t.procsToErase fs).toList
  rw [hrefresh.restrict_outside_nil, List.nil_append] at herased
  simp only [update, herased, Option.map_some]

/-! ### Runs -/

theorem consistent_empty : empty.Consistent where
  parent_lists _ _ _ hp _ := by cases hp
  child_links _ _ _ hp _ := by cases hp
  acyclic pid hcycle := by
    obtain ⟨child, hlink, -⟩ := Relation.TransGen.head'_iff.mp hcycle
    cases hlink

theorem consistent_new (fs : ProcFs) (root : Pid) : (new fs root).Consistent := by
  have hothers : ∀ q, q ≠ root → (new fs root).processes q =
      (empty.processes q).map fun r => if none = some q then r.addChild root else r :=
    fun q hq => put_processes_of_ne hq
  have hparent : ∀ parent, none = some parent → ∃ r, empty.processes parent = some r := by simp
  exact Grows.consistent ⟨rfl, hparent, rfl, put_processes_self, hothers⟩ consistent_empty

/-- A process is not inserted below one that is not in the tree. -/
theorem insert_of_none (self : Pid) (fs : ProcFs) (hparent : t.processes parent = none)
    (hnew : t.processes pid = none) : t.insert self fs pid (some parent) = none := by
  have hlink : ∀ proc, t.link pid proc (some parent) = none := fun proc => by
    rw [link, addChildren, hparent, Option.map_none, Option.bind_none]
  rw [insert, insertFuel, hnew]
  simp only [reduceCtorEq, and_false, if_false, construct]
  split_ifs
  · rw [addChildren, hparent, Option.map_none, Option.bind_none]
  · rw [Option.bind_some, hlink]

/-- Every operation on a consistent tree leads to a consistent one. -/
theorem Consistent.step (h : t.Consistent) (self : Pid) {op : TreeOp}
    (hstep : t.step self op = some t') : t'.Consistent := by
  cases op with
  | insert fs pid parent =>
    by_cases hparent : ∀ q, parent = some q → ∃ r, t.processes q = some r
    · obtain ⟨t₁, hinsert, hinserts⟩ := insert_spec self fs h parent hparent
      obtain rfl : t₁ = t' := Option.some.inj (hinsert.symm.trans hstep)
      exact hinserts.consistent
    · push Not at hparent
      obtain ⟨q, rfl, hq⟩ := hparent
      have hnone : t.processes q = none := Option.eq_none_iff_forall_ne_some.mpr hq
      rcases hnew : t.processes pid with _ | p
      · exact absurd hstep (by simp [ProcessTree.step, insert_of_none self fs hnone hnew])
      · have hsame : t.insert self fs pid (some q) = some t := by rw [insert, insertFuel, hnew]
        obtain rfl : t = t' := Option.some.inj (hsame.symm.trans hstep)
        exact h
  | update fs order =>
    simp only [ProcessTree.step, update_eq fs order h, Option.map_some, Option.some.injEq] at hstep
    rw [← hstep]
    exact (h.refresh fs).restrict closedUp_outside
  | erase order pid =>
    have herase : t.erase order pid = some (t.restrict (t.subtree pid)ᶜ) := erase_eq order h
    obtain rfl := Option.some.inj (herase.symm.trans hstep)
    exact h.restrict closedUp_compl_subtree

/-- On a consistent tree every operation that is allowed has a result. -/
theorem Consistent.exists_step (h : t.Consistent) (self : Pid) {op : TreeOp} (hop : t.Allowed op) :
    ∃ t', t.step self op = some t' := by
  cases op with
  | insert fs pid parent =>
    have hparent : ∀ q, parent = some q → ∃ r, t.processes q = some r := by
      rintro q rfl
      exact hop
    obtain ⟨t', hinsert, -⟩ : ∃ t', t.insert self fs pid parent = some t' ∧ Inserts fs t pid t' :=
      insert_spec self fs h parent hparent
    exact ⟨t', hinsert⟩
  | update fs order => exact ⟨_, by rw [ProcessTree.step, update_eq fs order h, Option.map_some]⟩
  | erase order pid => exact ⟨_, erase_eq order h⟩

/-- **Links.** -/
theorem consistent_of_run (self root : Pid) (fs : ProcFs) (ops : List TreeOp)
    (hrun : ops.foldlM (step self) (new fs root) = some t) :
    t.Consistent ∧ (∀ op, t.Allowed op → ∃ t', t.step self op = some t') ∧
      ∀ order pid, ∃ t', t.erase order pid = some t' ∧ ErasesSubtree t pid t' := by
  have h : t.Consistent := foldlM_invariant (I := Consistent) (consistent_new fs root)
    (fun _ _ _ _ h hstep => h.step self hstep) hrun
  exact ⟨h, fun op hop => h.exists_step self hop,
    fun order pid => ⟨_, erase_eq order h, erasesSubtree_restrict h⟩⟩

/-- Process 11 is the parent of process 12 and a child of process 10. -/
def chainFs : ProcFs where
  stat
    | 10 => some 1
    | 11 => some 10
    | 12 => some 11
    | _ => none
  pids := OrderedSet.insertMany ∅ [10, 11, 12]
  mem_pids pid parent h := by
    split at h <;> cases h <;> decide
  acyclic := by
    refine acyclic_of_lt id fun parent pid hlink => ?_
    rw [Link] at hlink
    split at hlink <;> cases hlink <;> decide

/-- The children are visited from the smallest identifier to the largest. -/
def ascending : ChildOrder where
  visit _ children := children.toList
  perm _ _ := .refl _

/-- Process 12 is inserted with its parent, which is then erased with its child. -/
theorem consistent_of_run_chain :
    ∃ t, [TreeOp.insert chainFs 12 none, .update chainFs ascending, .erase ascending 11].foldlM
        (step 10) (new chainFs 10) = some t ∧ t.pids.toList = [10] ∧ t.Consistent := by
  refine ⟨_, rfl, by decide, ?_⟩
  exact (consistent_of_run 10 10 chainFs [.insert chainFs 12 none, .update chainFs ascending,
    .erase ascending 11] rfl).1

end ProcessTree

end Thanos
