import Thanos.Library.TextStream
import Thanos.SystemInfo.Descendants

/-!
# Scanning `/proc`

`scan_dir` looks for the threads of a process among the directories in its `task`, and
`scan_children_file` for the processes that a thread has started in its `children`. Both insert
what they find into the tree of processes, and go on with it.

* **Numbers** (`childPids_childrenText`, `stoi_showInt`): the identifiers that the kernel prints
  are read back, the last one in a file because a space follows it.
* **Scans** (`scanDir_spec`): a scan of a process ends, and inserts the threads of the process and
  of everything that it has started, each below a process that is in the tree.
-/

namespace Thanos

/-- A path, as the names of the directories on it. -/
abbrev Path := List (List Char)

/-- What is found in a directory. -/
structure DirectoryEntry where
  filename : List Char
  isDirectory : Bool
  deriving DecidableEq

/-- The files under `/proc` at some moment. -/
structure FileSystem where
  /-- The contents of a directory in the order in which they are visited, `none` if there is no
  such directory. -/
  directory : Path → Option (List DirectoryEntry)
  /-- The text of a file, which is empty if it cannot be opened. -/
  file : Path → List Char

/-- The directory of the threads of a process. -/
def taskDir (pid : Pid) : Path :=
  ["proc".toList, TextStream.showInt pid, "task".toList]

/-- `std::stoi`, with `none` for the exceptions. -/
def stoi (text : List Char) : Option ℤ :=
  let (negative, unsigned) := TextStream.splitSign (text.dropWhile TextStream.isSpace)
  let digits := unsigned.takeWhile Char.isDigit
  let n : ℤ := Nat.ofDigitChars 10 digits 0
  let value := if negative then -n else n
  if digits = [] ∨ value < -2 ^ 31 ∨ 2 ^ 31 ≤ value then none else some value

/-- The numbers for which the body of the loop of `scan_children_file` is run. -/
def childPids : ℕ → TextStream → List Pid
  | 0, _ => []
  | fuel + 1, s =>
    if s.good then
      let (child, s) := TextStream.readNumber (0 : Int32) s
      if s.eof then [] else child.toInt.toNat :: childPids fuel s
    else []

namespace ProcessTree

section

variable (self : Pid) (fs : ProcFs) (files : FileSystem)

/-- `scan_children_file`, given how a directory is scanned. -/
def scanChildrenFile (scanDir : Path → Option Pid → ProcessTree → Option ProcessTree)
    (path : Path) (parent : Pid) (t : ProcessTree) : Option ProcessTree :=
  let text := files.file (path ++ ["children".toList])
  (childPids (text.length + 1) (.ofText text)).foldlM (fun t child =>
    (t.insert self fs child (some parent)).bind (scanDir (taskDir child) (some child))) t

/-- The body of the loop of `scan_dir`, given how a directory is scanned. -/
def scanContent (scanDir : Path → Option Pid → ProcessTree → Option ProcessTree) (dir : Path)
    (parent : Option Pid) (t : ProcessTree) (content : DirectoryEntry) : Option ProcessTree :=
  if content.isDirectory then
    match stoi content.filename with
    | none => some t
    | some pid =>
      let pid := pid.toNat
      let path := dir ++ [content.filename]
      -- the thread that is the process itself is not inserted below itself
      if parent = some pid then scanChildrenFile self fs files scanDir path pid t
      else
        (t.insert self fs pid parent).bind fun t =>
          (scanChildrenFile self fs files scanDir path pid t).bind
            (scanDir (path ++ ["task".toList]) (some pid))
  else some t

/-- `scan_dir`, for a number of directories inside each other. -/
def scanDir : ℕ → Path → Option Pid → ProcessTree → Option ProcessTree
  | 0, _, _, _ => none
  | fuel + 1, dir, parent, t =>
    match files.directory dir with
    | none => some t
    | some contents => contents.foldlM (scanContent self fs files (scanDir fuel) dir parent) t

end

end ProcessTree

/-! ### What the kernel shows -/

/-- The threads and the children of the processes that exist. -/
structure KernelTasks extends ProcFs where
  /-- The threads of a process, the process itself among them. -/
  tasks : Pid → List Pid
  /-- The processes that a thread has started. -/
  childrenOf : Pid → List Pid
  mem_pids_of_task : ∀ pid, ∀ tid ∈ tasks pid, pid ∈ pids
  /-- The parent of a process is the one of which a thread has started it. -/
  stat_child : ∀ pid, ∀ tid ∈ tasks pid, ∀ child ∈ childrenOf tid, stat child = some pid
  /-- An identifier is a `pid_t`. -/
  task_lt : ∀ pid, ∀ tid : ℕ, tid ∈ tasks pid → tid < 2 ^ 31
  child_lt : ∀ tid, ∀ child : ℕ, child ∈ childrenOf tid → child < 2 ^ 31

/-- The text of the file `children`. -/
def childrenText (children : List Pid) : List Char :=
  children.flatMap fun child : Pid => TextStream.showInt (child : ℤ) ++ [' ']

/-- The files show the threads and the children. -/
structure Mounts (files : FileSystem) (k : KernelTasks) : Prop where
  tasks : ∀ pid, files.directory (taskDir pid) =
      some ((k.tasks pid).map fun tid : Pid => ⟨TextStream.showInt (tid : ℤ), true⟩) ∨
    files.directory (taskDir pid) = none ∧ k.tasks pid = []
  /-- A thread has no directory of threads. -/
  noTasks : ∀ pid tid,
    files.directory (taskDir pid ++ [TextStream.showInt tid] ++ ["task".toList]) = none
  children : ∀ pid, ∀ tid ∈ k.tasks pid,
    files.file (taskDir pid ++ [TextStream.showInt tid] ++ ["children".toList]) =
      childrenText (k.childrenOf tid)

/-- A file system that shows the threads and the children. -/
def KernelTasks.fileSystem (k : KernelTasks) : FileSystem where
  directory path :=
    (k.pids.toList.find? fun pid => decide (path = taskDir pid)).map fun pid =>
      (k.tasks pid).map fun tid : Pid => ⟨TextStream.showInt (tid : ℤ), true⟩
  file path :=
    let threads := k.pids.toList.flatMap fun pid => (k.tasks pid).map fun tid => (pid, tid)
    match threads.find? fun thread : Pid × Pid => decide (path =
        taskDir thread.1 ++ [TextStream.showInt thread.2] ++ ["children".toList]) with
    | some thread => childrenText (k.childrenOf thread.2)
    | none => []

/-- What a scan of a process finds: its threads, the processes they have started, and what is
found in these. -/
inductive KernelTasks.Finds (k : KernelTasks) : Pid → Pid → Prop
  | task {pid tid : Pid} (htid : tid ∈ k.tasks pid) : Finds k pid tid
  | child {pid tid child : Pid} (htid : tid ∈ k.tasks pid) (hchild : child ∈ k.childrenOf tid) :
    Finds k pid child
  | deeper {pid tid child q : Pid} (htid : tid ∈ k.tasks pid) (hchild : child ∈ k.childrenOf tid)
    (hq : Finds k child q) : Finds k pid q

/-! ### Names and numbers -/

section Text

open TextStream

theorem readNumber_space {text : List Char} (old : Int32) :
    readNumber old (ofText (' ' :: text)) = readNumber old (ofText text) := by
  have hspace : isSpace ' ' = true := by decide
  rw [readNumber, readNumber, skipSpace_space hspace]

theorem childPids_space {text : List Char} {fuel : ℕ} :
    childPids fuel (ofText (' ' :: text)) = childPids fuel (ofText text) := by
  cases fuel with
  | zero => rfl
  | succ fuel => rw [childPids, childPids, readNumber_space, good_ofText, good_ofText]

/-- The children are read from their file, the last one because a space follows it. -/
theorem childPids_childrenText {children : List Pid}
    (h : ∀ child : ℕ, child ∈ children → child < 2 ^ 31)
    {fuel : ℕ} (hfuel : children.length < fuel) :
    childPids fuel (ofText (childrenText children)) = children := by
  induction children generalizing fuel with
  | nil =>
    obtain ⟨fuel, rfl⟩ := Nat.exists_eq_succ_of_ne_zero (by omega : fuel ≠ 0)
    rfl
  | cons child children ih =>
    obtain ⟨fuel, rfl⟩ := Nat.exists_eq_succ_of_ne_zero (by omega : fuel ≠ 0)
    have hlt := h child List.mem_cons_self
    -- a number of the file fits in a `pid_t`
    have hint : (Int32.ofInt child).toInt = child := Int32.toInt_ofInt_of_le (by omega) (by omega)
    have htext : childrenText (child :: children) =
        showInt child ++ ' ' :: childrenText children := by
      simp [childrenText]
    have hread := readNumber_showInt (α := Int32) (ofInt_int32 (Int32.ofInt child))
      (delimited_cons (by decide) : Delimited (' ' :: childrenText children)) 0
    rw [hint, ← htext] at hread
    rw [childPids, good_ofText, if_pos rfl, hread]
    have hrest := @ih (fun c hc => h c (List.mem_cons_of_mem child hc)) fuel (by simpa using hfuel)
    simp only [ofText, Bool.false_eq_true, if_false, hint, Int.toNat_natCast]
    rw [show (⟨' ' :: childrenText children, false, false⟩ : TextStream) =
      ofText (' ' :: childrenText children) from rfl, childPids_space, hrest]

theorem showInt_injective {a b : ℕ} (h : showInt (a : ℤ) = showInt (b : ℤ)) : a = b := by
  have hdigits : Nat.toDigits 10 a = Nat.toDigits 10 b := h
  rw [← Nat.ofDigitChars_ten_toDigits (n := a), hdigits, Nat.ofDigitChars_ten_toDigits]

theorem taskDir_injective {a b : Pid} (h : taskDir a = taskDir b) : a = b := by
  simp only [taskDir, List.cons.injEq, and_true, true_and] at h
  exact showInt_injective h

/-- Whatever the threads and the children are, there are files that show them. -/
theorem mounts_fileSystem (k : KernelTasks) : Mounts k.fileSystem k where
  tasks pid := by
    rcases hfind : k.pids.toList.find? fun pid' => decide (taskDir pid = taskDir pid') with
      _ | pid'
    · refine .inr ⟨by simp only [KernelTasks.fileSystem, hfind, Option.map_none], ?_⟩
      refine List.eq_nil_iff_forall_not_mem.mpr fun tid htid => ?_
      have hnone := List.find?_eq_none.mp hfind pid (k.mem_pids_of_task pid tid htid)
      exact hnone (decide_eq_true rfl)
    · obtain rfl : pid = pid' := taskDir_injective (by simpa using List.find?_some hfind)
      exact .inl (by simp only [KernelTasks.fileSystem, hfind, Option.map_some])
  noTasks pid tid := by
    have hnone : k.pids.toList.find? (fun pid' => decide
        (taskDir pid ++ [showInt tid] ++ ["task".toList] = taskDir pid')) = none := by
      refine List.find?_eq_none.mpr fun pid' _ heq => ?_
      -- the path is too long
      have hlength := congrArg List.length (of_decide_eq_true heq)
      simp [taskDir] at hlength
    simp only [KernelTasks.fileSystem, hnone, Option.map_none]
  children pid tid htid := by
    have hmem : (pid, tid) ∈ k.pids.toList.flatMap fun pid => (k.tasks pid).map fun tid =>
        (pid, tid) := by
      refine List.mem_flatMap.mpr ⟨pid, k.mem_pids_of_task pid tid htid, ?_⟩
      exact List.mem_map.mpr ⟨tid, htid, rfl⟩
    simp only [KernelTasks.fileSystem]
    rcases hfind : (k.pids.toList.flatMap fun pid => (k.tasks pid).map fun tid =>
        (pid, tid)).find? fun thread : Pid × Pid => decide (taskDir pid ++ [showInt tid] ++
          ["children".toList] = taskDir thread.1 ++ [showInt thread.2] ++ ["children".toList]) with
      _ | ⟨pid', tid'⟩
    · exact absurd (decide_eq_true rfl) (List.find?_eq_none.mp hfind (pid, tid) hmem)
    · have heq := List.find?_some hfind
      simp only [decide_eq_true_eq, taskDir, List.cons_append, List.nil_append, List.cons.injEq,
        and_true, true_and] at heq
      rw [showInt_injective heq.2]

theorem length_le_childrenText (children : List Pid) :
    children.length ≤ (childrenText children).length := by
  induction children with
  | nil => exact Nat.zero_le _
  | cons child children ih =>
    simp only [childrenText, List.flatMap_cons, List.length_append, List.length_cons] at ih ⊢
    omega

theorem stoi_showInt {tid : ℕ} (h : tid < 2 ^ 31) : stoi (showInt tid) = some (tid : ℤ) := by
  have hdigits : ∀ d ∈ Nat.toDigits 10 tid, d.isDigit = true := fun d hd =>
    Nat.isDigit_of_mem_toDigits (by decide) (by decide) hd
  obtain ⟨d, digits, hcons⟩ := List.exists_cons_of_ne_nil (Nat.toDigits_ne_nil (b := 10) (n := tid))
  have hd : d.isDigit = true := hdigits d (hcons ▸ List.mem_cons_self)
  have hskip : (showInt tid).dropWhile isSpace = d :: digits := by
    change (Nat.toDigits 10 tid).dropWhile isSpace = _
    rw [hcons, List.dropWhile_cons_of_neg (by simp [isSpace_of_isDigit hd])]
  have htake : (d :: digits).takeWhile Char.isDigit = Nat.toDigits 10 tid := by
    rw [← hcons]
    exact List.takeWhile_eq_self_iff.mpr hdigits
  rw [stoi, hskip, splitSign_of_isDigit hd]
  simp only [htake, Nat.ofDigitChars_ten_toDigits, Bool.false_eq_true, if_false]
  rw [if_neg]
  simp only [Nat.toDigits_ne_nil, false_or]
  omega

end Text

/-! ### What is inserted -/

namespace ProcessTree

/-- `t'` is `t` with some more processes, each of them below one that was there before. -/
structure Extends (t : ProcessTree) (found : Set Pid) (t' : ProcessTree) : Prop where
  consistent : t'.Consistent
  isSome_iff : ∀ q, (t'.processes q).isSome = true ↔ (t.processes q).isSome = true ∨ q ∈ found
  rooted : ∀ root, t.Rooted root → t'.Rooted root

variable {t t' t'' : ProcessTree} {found found' : Set Pid} {parent pid tid : Pid}

theorem Extends.refl (h : t.Consistent) : Extends t ∅ t :=
  ⟨h, fun q => by simp, fun _ h => h⟩

theorem Extends.trans (h : Extends t found t') (h' : Extends t' found' t'') :
    Extends t (found ∪ found') t'' where
  consistent := h'.consistent
  isSome_iff q := by rw [h'.isSome_iff, h.isSome_iff, Set.mem_union, or_assoc]
  rooted root hroot := h'.rooted root (h.rooted root hroot)

theorem Extends.isSome (h : Extends t found t') (hpid : (t.processes pid).isSome = true) :
    (t'.processes pid).isSome = true :=
  (h.isSome_iff pid).mpr (.inl hpid)

/-- A process is inserted below another one. -/
theorem exists_insert (self : Pid) (fs : ProcFs) (pid : Pid) (h : t.Consistent)
    (hparent : (t.processes parent).isSome = true) :
    ∃ t', t.insert self fs pid (some parent) = some t' ∧ Extends t {pid} t' := by
  obtain ⟨r, hr⟩ := Option.isSome_iff_exists.mp hparent
  rw [ProcessTree.insert, insertFuel]
  cases hnew : t.processes pid with
  | some p =>
    refine ⟨t, rfl, h, fun q => (or_iff_left_of_imp ?_).symm, fun _ h => h⟩
    rintro rfl
    rw [hnew, Option.isSome_some]
  | none =>
    obtain ⟨t', hlink, hgrows⟩ := link_of_some (p := .new fs pid (some parent)) hnew hr rfl
    refine ⟨t', ?_, hgrows.consistent h, fun q => ?_, fun root hroot =>
      hgrows.rooted ⟨parent, rfl⟩ hroot⟩
    · simp only [reduceCtorEq, and_false, if_false]
      rw [construct_bind_link hr, hlink]
    · by_cases hq : q = pid
      · subst hq
        simp [hgrows.self]
      · simp [hgrows.others q hq, hq]

/-- What is found below some of the children of a thread. -/
def foundBelow (k : KernelTasks) (children : List Pid) : Set Pid :=
  {q | ∃ child ∈ children, q = child ∨ k.Finds child q}

/-- What is found below some of the threads of a process. -/
def foundIn (k : KernelTasks) (tasks : List Pid) : Set Pid :=
  {q | ∃ tid ∈ tasks, q = tid ∨ q ∈ foundBelow k (k.childrenOf tid)}

theorem foundBelow_append {k : KernelTasks} {children : List Pid} {child : Pid} :
    foundBelow k (children ++ [child]) =
      foundBelow k children ∪ ({child} ∪ {q | k.Finds child q}) := by
  ext q
  simp only [foundBelow, Set.mem_ofPred_eq, List.mem_append, List.mem_singleton, or_and_right,
    exists_or, exists_eq_left, Set.mem_union, Set.mem_singleton_iff]

theorem foundIn_append {k : KernelTasks} {tasks : List Pid} :
    foundIn k (tasks ++ [tid]) =
      foundIn k tasks ∪ ({tid} ∪ foundBelow k (k.childrenOf tid)) := by
  ext q
  simp only [foundIn, Set.mem_ofPred_eq, List.mem_append, List.mem_singleton, or_and_right,
    exists_or, exists_eq_left, Set.mem_union, Set.mem_singleton_iff]

theorem foundIn_tasks (k : KernelTasks) (pid : Pid) :
    foundIn k (k.tasks pid) = {q | k.Finds pid q} := by
  ext q
  constructor
  · rintro ⟨tid, htid, rfl | ⟨child, hchild, rfl | hq⟩⟩
    · exact .task htid
    · exact .child htid hchild
    · exact .deeper htid hchild hq
  · rintro (htid | ⟨htid, hchild⟩ | ⟨htid, hchild, hq⟩)
    · exact ⟨q, htid, .inl rfl⟩
    · exact ⟨_, htid, .inr ⟨q, hchild, .inl rfl⟩⟩
    · exact ⟨_, htid, .inr ⟨_, hchild, .inr hq⟩⟩

variable {self : Pid} {files : FileSystem} {k : KernelTasks}

/-- The processes that a thread has started are inserted, with what is found in them. -/
theorem scanChildrenFile_spec (hfiles : Mounts files k)
    {scan : Path → Option Pid → ProcessTree → Option ProcessTree} (htid : tid ∈ k.tasks pid)
    (hscan : ∀ child ∈ k.childrenOf tid, ∀ t : ProcessTree, t.Consistent →
      (t.processes child).isSome = true → ∃ t', scan (taskDir child) (some child) t = some t' ∧
        Extends t {q | k.Finds child q} t')
    (h : t.Consistent) (hmem : (t.processes tid).isSome = true) :
    ∃ t', scanChildrenFile self k.toProcFs files scan
        (taskDir pid ++ [TextStream.showInt tid]) tid t = some t' ∧
      Extends t (foundBelow k (k.childrenOf tid)) t' := by
  have hnone : foundBelow k [] = ∅ := by
    ext q
    simp [foundBelow]
  have hlength : (k.childrenOf tid).length < (childrenText (k.childrenOf tid)).length + 1 :=
    Nat.lt_succ_of_le (length_le_childrenText _)
  rw [scanChildrenFile, hfiles.children pid tid htid]
  simp only [childPids_childrenText (k.child_lt tid) hlength]
  refine foldlM_processed (k.childrenOf tid)
    (P := fun children t' => Extends t (foundBelow k children) t')
    (by rw [hnone]; exact .refl h) fun done child rest t₁ hdone h₁ => ?_
  have hchild : child ∈ k.childrenOf tid := by simp [hdone]
  -- a child is inserted first, and its directory is scanned then
  obtain ⟨t₂, hinsert, h₂⟩ := exists_insert self k.toProcFs child h₁.consistent (h₁.isSome hmem)
  obtain ⟨t₃, hscanned, h₃⟩ :=
    hscan child hchild t₂ h₂.consistent ((h₂.isSome_iff child).mpr (.inr rfl))
  refine ⟨t₃, by rw [hinsert]; exact hscanned, ?_⟩
  rw [foundBelow_append]
  exact h₁.trans (h₂.trans h₃)

/-- A thread is inserted, unless it is the process itself, with what is found in it. -/
theorem scanContent_spec (hfiles : Mounts files k) {fuel : ℕ} (htid : tid ∈ k.tasks pid)
    (hscan : ∀ child ∈ k.childrenOf tid, ∀ t : ProcessTree, t.Consistent →
      (t.processes child).isSome = true → ∃ t',
        scanDir self k.toProcFs files (fuel + 1) (taskDir child) (some child) t = some t' ∧
        Extends t {q | k.Finds child q} t')
    (h : t.Consistent) (hmem : (t.processes pid).isSome = true) :
    ∃ t', scanContent self k.toProcFs files (scanDir self k.toProcFs files (fuel + 1))
        (taskDir pid) (some pid) t ⟨TextStream.showInt tid, true⟩ = some t' ∧
      Extends t ({tid} ∪ foundBelow k (k.childrenOf tid)) t' := by
  simp only [scanContent, if_true, stoi_showInt (k.task_lt pid tid htid), Int.toNat_natCast,
    Option.some.injEq]
  split_ifs with hself
  · -- the process itself is in the tree already
    subst hself
    obtain ⟨t', heq, h'⟩ := scanChildrenFile_spec hfiles htid hscan h hmem
    refine ⟨t', heq, h'.consistent, fun q => ?_, h'.rooted⟩
    rw [h'.isSome_iff, Set.mem_union, Set.mem_singleton_iff]
    constructor
    · exact Or.imp_right .inr
    · rintro (hq | rfl | hq)
      · exact .inl hq
      · exact .inl hmem
      · exact .inr hq
  · obtain ⟨t₁, hinsert, h₁⟩ := exists_insert self k.toProcFs tid h hmem
    obtain ⟨t₂, hchildren, h₂⟩ := scanChildrenFile_spec hfiles htid hscan h₁.consistent
      ((h₁.isSome_iff tid).mpr (.inr rfl))
    refine ⟨t₂, ?_, h₁.trans h₂⟩
    -- the scan below a thread finds no directory
    rw [hinsert, Option.bind_some, hchildren, Option.bind_some, scanDir, hfiles.noTasks]

/-- **Scans.** A scan of a process inserts what it finds, and ends. -/
theorem scanDir_spec (self : Pid) (hfiles : Mounts files k) (h : t.Consistent)
    (hmem : (t.processes pid).isSome = true) {fuel : ℕ}
    (hfuel : numDescendants k.stat k.pids.toFinset pid + 2 ≤ fuel) :
    ∃ t', scanDir self k.toProcFs files fuel (taskDir pid) (some pid) t = some t' ∧
      Extends t {q | k.Finds pid q} t' := by
  induction fuel generalizing t pid with
  | zero => omega
  | succ fuel ih =>
    obtain ⟨fuel, rfl⟩ := Nat.exists_eq_succ_of_ne_zero (by omega : fuel ≠ 0)
    have hnone : foundIn k [] = ∅ := by
      ext q
      simp [foundIn]
    rw [← foundIn_tasks, scanDir]
    -- the process may have ended before its directory is opened
    obtain hcontents | ⟨hcontents, htasks⟩ := hfiles.tasks pid
    · simp only [hcontents, List.foldlM_map]
      refine foldlM_processed (k.tasks pid) (P := fun tasks t' => Extends t (foundIn k tasks) t')
        (by rw [hnone]; exact .refl h) fun done tid rest t₁ hdone h₁ => ?_
      have htid : tid ∈ k.tasks pid := by simp [hdone]
      have hpid : pid ∈ k.pids.toFinset :=
        OrderedSet.mem_toFinset.mpr (k.mem_pids_of_task pid tid htid)
      -- the children have fewer descendants
      obtain ⟨t₂, hcontent, h₂⟩ := scanContent_spec hfiles htid
        (fun child hchild t ht hmem => by
          have hless := numDescendants_lt k.acyclic (k.stat_child pid tid htid child hchild) hpid
          exact ih ht hmem (by omega)) h₁.consistent (h₁.isSome hmem)
      exact ⟨t₂, hcontent, foundIn_append ▸ h₁.trans h₂⟩
    · refine ⟨t, by simp only [hcontents], ?_⟩
      rw [htasks, hnone]
      exact .refl h

/-- **Search.** After a scan of the process to which the tree belongs, `all_children` lists each of
its threads, of the processes that these have started, and so on, exactly once, besides what was in
the tree before. -/
theorem allChildren_of_scanDir (self : Pid) (order : ChildOrder) (hfiles : Mounts files k)
    (h : t.Consistent) (hroot : t.Rooted pid) (hmem : (t.processes pid).isSome = true) :
    ∃ t' children, scanDir self k.toProcFs files (k.pids.size + 2) (taskDir pid) (some pid) t =
        some t' ∧ t'.allChildren order pid = some children ∧ children.Nodup ∧
      ∀ q, q ∈ children ↔ q ≠ pid ∧ ((t.processes q).isSome = true ∨ k.Finds pid q) := by
  have hfuel : numDescendants k.stat k.pids.toFinset pid + 2 ≤ k.pids.size + 2 := by
    rw [← OrderedSet.card_toFinset]
    exact Nat.add_le_add_right numDescendants_le 2
  obtain ⟨t', hscan, h'⟩ := scanDir_spec self hfiles h hmem hfuel
  obtain ⟨children, hchildren, hnodup, hmemchildren⟩ :=
    allChildren_spec order h'.consistent (h'.isSome hmem)
  refine ⟨t', children, hscan, hchildren, hnodup, fun q => ?_⟩
  have hsome : ((t.processes q).isSome = true ∨ k.Finds pid q) ↔
      (t'.processes q).isSome = true := (h'.isSome_iff q).symm
  rw [hmemchildren, hsome, (h'.rooted pid hroot).descends_iff h'.consistent]

/-- Process 10 has a second thread, 15, which has started process 11; 11 has started 12. -/
def twoThreads : KernelTasks where
  stat
    | 10 => some 1
    | 11 => some 10
    | 12 => some 11
    | 15 => some 1
    | _ => none
  pids := OrderedSet.insertMany ∅ [10, 11, 12, 15]
  mem_pids pid parent h := by
    split at h <;> cases h <;> decide
  acyclic := by
    refine acyclic_of_lt id fun parent pid hlink => ?_
    rw [Link] at hlink
    split at hlink <;> cases hlink <;> decide
  tasks pid := if pid = 10 then [10, 15] else if pid = 11 ∨ pid = 12 then [pid] else []
  childrenOf tid := if tid = 15 then [11] else if tid = 11 then [12] else []
  mem_pids_of_task pid tid htid := by
    split_ifs at htid with h10 h11
    · simp [h10]
    · obtain rfl | rfl := h11 <;> simp
    · exact absurd htid List.not_mem_nil
  stat_child pid tid htid child hchild := by
    split_ifs at hchild with h15 h11
    · obtain rfl := List.mem_singleton.mp hchild
      split_ifs at htid with h10 hchain
      · rw [h10]
        rfl
      · rw [← List.mem_singleton.mp htid, h15] at hchain
        simp at hchain
      · exact absurd htid List.not_mem_nil
    · obtain rfl := List.mem_singleton.mp hchild
      split_ifs at htid with h10 hchain
      · simp [h11] at htid
      · rw [← List.mem_singleton.mp htid, h11]
        rfl
      · exact absurd htid List.not_mem_nil
    · exact absurd hchild List.not_mem_nil
  task_lt pid tid htid := by
    split_ifs at htid with h10 h11
    · obtain rfl | rfl : tid = 10 ∨ tid = 15 := by simpa using htid
      · decide
      · decide
    · rw [List.mem_singleton.mp htid]
      obtain rfl | rfl := h11 <;> decide
    · exact absurd htid List.not_mem_nil
  child_lt tid child hchild := by
    split_ifs at hchild with h15 h11
    · rw [List.mem_singleton.mp hchild]
      decide
    · rw [List.mem_singleton.mp hchild]
      decide
    · exact absurd hchild List.not_mem_nil

/-- The thread and both processes are found from process 10. -/
theorem allChildren_of_scanDir_twoThreads :
    ∃ t' children, scanDir 1 twoThreads.toProcFs twoThreads.fileSystem 6 (taskDir 10) (some 10)
        (new twoThreads.toProcFs 10) = some t' ∧ t'.allChildren ascending 10 = some children ∧
      15 ∈ children ∧ 11 ∈ children ∧ 12 ∈ children := by
  obtain ⟨t', children, hscan, hchildren, -, hmem⟩ :=
    allChildren_of_scanDir 1 ascending (mounts_fileSystem twoThreads)
      (consistent_new twoThreads.toProcFs 10) (rooted_new twoThreads.toProcFs 10)
      (by rw [new, put_processes_self]; rfl)
  have htask : ∀ tid, tid ∈ twoThreads.tasks 10 → twoThreads.Finds 10 tid := fun tid => .task
  have hchild : twoThreads.Finds 10 11 := .child (show 15 ∈ twoThreads.tasks 10 by decide)
    (show 11 ∈ twoThreads.childrenOf 15 by decide)
  have hdeeper : twoThreads.Finds 10 12 := .deeper (show 15 ∈ twoThreads.tasks 10 by decide)
    (show 11 ∈ twoThreads.childrenOf 15 by decide)
    (.child (show 11 ∈ twoThreads.tasks 11 by decide)
      (show 12 ∈ twoThreads.childrenOf 11 by decide))
  exact ⟨t', children, hscan, hchildren, (hmem 15).mpr ⟨by decide, .inr (htask 15 (by decide))⟩,
    (hmem 11).mpr ⟨by decide, .inr hchild⟩, (hmem 12).mpr ⟨by decide, .inr hdeeper⟩⟩

example : ((scanDir 1 twoThreads.toProcFs twoThreads.fileSystem 6 (taskDir 10) (some 10)
    (new twoThreads.toProcFs 10)).bind fun t => t.allChildren ascending 10) =
      some [15, 11, 12] := by
  decide

end ProcessTree

end Thanos
