import Mathlib.Logic.Function.Basic
import Thanos.Library.Forest
import Thanos.Utils.Types

/-!
# The tree of processes

`process_tree` owns the processes; each of them points to its parent and to its children.
`insert` creates a process and climbs to its parent, which it inserts as well if it is missing,
`erase` removes a process after its children, `update` removes the processes that cannot be
read any more, and `erase_invalid` those that are marked as invalid.

A pointer is the identifier of the process it points to. An operation that would follow a
pointer to a process that is gone has no result.
-/

namespace Thanos

/-! ### Processes -/

/-- The directory `/proc` at some moment. -/
structure ProcFs where
  /-- The parent in the file `stat` of a process, `none` if the file cannot be read. -/
  stat : Pid → Option Pid
  /-- The processes that exist. -/
  pids : OrderedSet Pid
  mem_pids : ∀ pid parent, stat pid = some parent → pid ∈ pids
  acyclic : Acyclic stat

/-- `process`, the fields that the tree reads or writes. -/
structure ProcessNode where
  parent : Option Pid
  children : OrderedSet Pid
  /-- The parent that `/proc` reports. -/
  ppid : Pid
  valid : Bool
  deriving DecidableEq

namespace ProcessNode

/-- The constructor; what it adds to the children of the parent is left to the tree. -/
def new (fs : ProcFs) (pid : Pid) (parent : Option Pid) : ProcessNode where
  parent := parent
  children := ∅
  ppid := (fs.stat pid).getD 0
  valid := (fs.stat pid).isSome

/-- `update`. -/
def update (fs : ProcFs) (pid : Pid) (p : ProcessNode) : ProcessNode :=
  match fs.stat pid with
  | none => { p with valid := false }
  | some ppid => { p with ppid := ppid, valid := true }

@[simp]
theorem update_parent {fs : ProcFs} {pid : Pid} {p : ProcessNode} :
    (p.update fs pid).parent = p.parent := by
  unfold update
  cases fs.stat pid <;> rfl

@[simp]
theorem update_children {fs : ProcFs} {pid : Pid} {p : ProcessNode} :
    (p.update fs pid).children = p.children := by
  unfold update
  cases fs.stat pid <;> rfl

end ProcessNode

/-- The orders in which the maps of children are visited. -/
structure ChildOrder where
  visit : Pid → OrderedSet Pid → List Pid
  perm : ∀ pid children, (visit pid children).Perm children.toList

/-- `process_tree`. -/
structure ProcessTree where
  processes : Pid → Option ProcessNode
  /-- The keys of the map. -/
  pids : OrderedSet Pid
  mem_pids : ∀ pid, pid ∈ pids ↔ (processes pid).isSome = true

namespace ProcessTree

/-- A process is written. -/
def put (t : ProcessTree) (pid : Pid) (p : ProcessNode) : ProcessTree where
  processes := Function.update t.processes pid (some p)
  pids := insert pid t.pids
  mem_pids pid' := by
    rw [OrderedSet.mem_insert, t.mem_pids, Function.update_apply]
    split_ifs with h <;> simp [h]

/-- A process is removed. -/
def remove (t : ProcessTree) (pid : Pid) : ProcessTree where
  processes := Function.update t.processes pid none
  pids := t.pids.erase pid
  mem_pids pid' := by
    rw [OrderedSet.mem_erase, t.mem_pids, Function.update_apply]
    split_ifs with h <;> simp [h]

@[simp]
theorem put_processes_self {t : ProcessTree} {pid : Pid} {p : ProcessNode} :
    (t.put pid p).processes pid = some p :=
  Function.update_self ..

theorem put_processes_of_ne {t : ProcessTree} {pid q : Pid} {p : ProcessNode} (h : q ≠ pid) :
    (t.put pid p).processes q = t.processes q :=
  Function.update_of_ne h ..

@[simp]
theorem remove_processes_self {t : ProcessTree} {pid : Pid} :
    (t.remove pid).processes pid = none :=
  Function.update_self ..

theorem remove_processes_of_ne {t : ProcessTree} {pid q : Pid} (h : q ≠ pid) :
    (t.remove pid).processes q = t.processes q :=
  Function.update_of_ne h ..

/-- A tree without processes. -/
def empty : ProcessTree :=
  ⟨fun _ => none, ∅, fun _ => by simp⟩

/-- The constructor: the root is the only process. -/
def new (fs : ProcFs) (root : Pid) : ProcessTree :=
  empty.put root (.new fs root none)

variable (t : ProcessTree)

/-- `add_children`. -/
def addChildren (parent pid : Pid) : Option ProcessTree :=
  (t.processes parent).map fun p => t.put parent { p with children := insert pid p.children }

/-- `remove_children`. -/
def removeChildren (parent pid : Pid) : Option ProcessTree :=
  (t.processes parent).map fun p => t.put parent { p with children := p.children.erase pid }

/-- The body of the first loop of `erase_invalid`: an invalid process leaves the children of its
parent, but keeps its link to it. -/
def detach (s : OrderedSet Pid × ProcessTree) (pid : Pid) :
    Option (OrderedSet Pid × ProcessTree) :=
  (s.2.processes pid).bind fun proc =>
    if proc.valid then some s
    else
      match proc.parent with
      | none => some (insert pid s.1, s.2)
      | some parent => (s.2.removeChildren parent pid).map fun t => (insert pid s.1, t)

/-- A new process is added to the map, which refuses one that it has already. -/
def register (pid : Pid) (proc : ProcessNode) : Option ProcessTree :=
  if (t.processes pid).isSome then none else some (t.put pid proc)

/-- A new process is linked to its parent, if it has one, and added to the map. -/
def link (pid : Pid) (proc : ProcessNode) : Option Pid → Option ProcessTree
  | none => t.register pid proc
  | some parent =>
    (t.addChildren parent pid).bind fun t => t.register pid { proc with parent := some parent }

/-- What the constructor of `process` does to the parent. -/
def construct (proc : ProcessNode) (pid : Pid) : Option Pid → Option ProcessTree
  | none => some t
  | some parent => if proc.valid then t.addChildren parent pid else some t

/-- `insert`, for a number of processes to climb; `self` is the process that runs. -/
def insertFuel (self : Pid) (fs : ProcFs) :
    ℕ → ProcessTree → Pid → Option Pid → Option ProcessTree
  | 0, _, _, _ => none
  | fuel + 1, t, pid, parent =>
    match t.processes pid with
    | some _ => some t
    | none =>
      let proc := ProcessNode.new fs pid parent
      (t.construct proc pid parent).bind fun t =>
        if pid ≠ self ∧ proc.ppid ≠ 0 ∧ parent = none then
          -- `retrieve`
          match t.processes proc.ppid with
          | some _ => t.link pid proc (some proc.ppid)
          | none =>
            (insertFuel self fs fuel t proc.ppid none).bind fun t =>
              t.link pid proc (some proc.ppid)
        else t.link pid proc parent

/-- `insert`. -/
def insert (self : Pid) (fs : ProcFs) (pid : Pid) (parent : Option Pid) : Option ProcessTree :=
  insertFuel self fs (fs.pids.size + 1) t pid parent

/-- The end of `erase`: a process leaves the children of its parent and the map. -/
def removeSelf (pid : Pid) : Option ProcessTree :=
  (t.processes pid).bind fun process =>
    match process.parent with
    | none => some (t.remove pid)
    | some parent => (t.removeChildren parent pid).map fun t => t.remove pid

/-- `erase`, for a number of generations. -/
def eraseFuel (order : ChildOrder) : ℕ → ProcessTree → Pid → Option ProcessTree
  | 0, _, _ => none
  | fuel + 1, t, pid =>
    match t.processes pid with
    | none => some t
    | some process =>
      let erased := (order.visit pid process.children).foldlM (fun t child =>
        if (t.processes child).isSome then eraseFuel order fuel t child else none) t
      erased.bind fun t => t.removeSelf pid

/-- `erase`. -/
def erase (order : ChildOrder) (pid : Pid) : Option ProcessTree :=
  eraseFuel order (t.pids.size + 1) t pid

/-- The first loop of `update`: every process is read again. -/
def refresh (fs : ProcFs) : ProcessTree where
  processes pid := (t.processes pid).map (ProcessNode.update fs pid)
  pids := t.pids
  mem_pids pid := by rw [t.mem_pids, Option.isSome_map]

/-- `procs_to_erase`. -/
def procsToErase (fs : ProcFs) : OrderedSet Pid :=
  t.pids.filter fun pid => (fs.stat pid).isNone

/-- `update`, which succeeds if all processes could be read. -/
def update (fs : ProcFs) (order : ChildOrder) : Option (Bool × ProcessTree) :=
  let procsToErase := t.procsToErase fs
  let erased := procsToErase.toList.foldlM (fun t pid => t.erase order pid) (t.refresh fs)
  erased.map fun t => (decide (procsToErase.size = 0), t)

/-- `erase_invalid`, given the order in which the map of the processes is visited. -/
def eraseInvalid (order : ChildOrder) (visit : List Pid) :
    Option (OrderedSet Pid × ProcessTree) :=
  (visit.foldlM detach (∅, t)).bind fun s =>
    (s.1.toList.foldlM (fun (t : ProcessTree) pid => t.erase order pid) s.2).map fun t => (s.1, t)

end ProcessTree

/-- The operations on a tree, each with what it finds in `/proc`. -/
inductive TreeOp
  | insert (fs : ProcFs) (pid : Pid) (parent : Option Pid)
  | update (fs : ProcFs) (order : ChildOrder)
  | erase (order : ChildOrder) (pid : Pid)

namespace ProcessTree

/-- A process that is given as a parent is in the tree. -/
def Allowed (t : ProcessTree) : TreeOp → Prop
  | .insert _ _ (some parent) => ∃ p, t.processes parent = some p
  | .insert _ _ none => True
  | .update _ _ => True
  | .erase _ _ => True

/-- An operation is performed. -/
def step (self : Pid) (t : ProcessTree) : TreeOp → Option ProcessTree
  | .insert fs pid parent => t.insert self fs pid parent
  | .update fs order => (t.update fs order).map Prod.snd
  | .erase order pid => t.erase order pid

end ProcessTree

end Thanos
