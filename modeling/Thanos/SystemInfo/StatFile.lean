import Mathlib.Data.List.Basic
import Thanos.Library.TextStream
import Thanos.SystemInfo.Process

/-!
# The file `stat` of a process

The kernel prints the identifier of a process, its name in parentheses, its state and some
numbers, with a space between any two of them. `read_stat_file` reads the name up to a space, and
what it finds after this space is taken for the state and the numbers.

* **Fields** (`readFields_reads`): the fields after the name are read back.
* **Placement** (`StatFields.Shows.readStatFile`): a read is what the placement of threads takes it
  for.
* **Names** (`recovers_iff`): the file is read back, whatever the state is, exactly when the name
  has no space.
-/

namespace Thanos

open TextStream

/-- The fields of a process that are read from its file `stat`, and those computed from them. -/
structure StatFields (R : Type) where
  state : Char
  ppid : Int32
  pgrp : UInt32
  session : UInt32
  ttyNr : UInt32
  tpgid : Int32
  flags : UInt64
  minflt : UInt64
  cminflt : UInt64
  majflt : UInt64
  cmajflt : UInt64
  utime : UInt64
  stime : UInt64
  cutime : UInt64
  cstime : UInt64
  time : UInt64
  priority : Int64
  nice : Int64
  numThreads : Int64
  starttime : UInt64
  exitSignal : Int32
  processor : Int32
  numaNode : Int32
  pinned : Bool
  pinnedProcessor : Int32
  pinnedNumaNode : Int32
  lastTimes : UInt64
  cpuUse : R

variable {R : Type} [RealT R]

/-- A process before its file is read. -/
def StatFields.new : StatFields R where
  state := Char.ofNat 0
  ppid := 0
  pgrp := 0
  session := 0
  ttyNr := 0
  tpgid := 0
  flags := 0
  minflt := 0
  cminflt := 0
  majflt := 0
  cmajflt := 0
  utime := 0
  stime := 0
  cutime := 0
  cstime := 0
  time := 0
  priority := 0
  nice := 0
  numThreads := 0
  starttime := 0
  exitSignal := 0
  processor := 0
  numaNode := 0
  pinned := false
  pinnedProcessor := 0
  pinnedNumaNode := 0
  lastTimes := 0
  cpuUse := RealT.ofRat 0

/-- The fields from `vsize` on that are skipped. -/
def skipFields : ℕ → Reader Unit
  | 0 => pure ()
  | n + 1 => do
    let _ ← readNumber (0 : UInt64)
    skipFields n

/-- The part of `read_stat_file` after the state; `numaNodeOfCpu` is `numa_node_of_cpu`. -/
def readNumbers (numaNodeOfCpu : Int32 → Int32) (p : StatFields R) (state : Char) :
    Reader (StatFields R) := do
  let ppid ← readNumber p.ppid
  let pgrp ← readNumber p.pgrp
  let session ← readNumber p.session
  let ttyNr ← readNumber p.ttyNr
  let tpgid ← readNumber p.tpgid
  let flags ← readNumber p.flags
  let minflt ← readNumber p.minflt
  let cminflt ← readNumber p.cminflt
  let majflt ← readNumber p.majflt
  let cmajflt ← readNumber p.cmajflt
  let utime ← readNumber p.utime
  let stime ← readNumber p.stime
  let cutime ← readNumber p.cutime
  let cstime ← readNumber p.cstime
  let priority ← readNumber p.priority
  let nice ← readNumber p.nice
  let numThreads ← readNumber p.numThreads
  -- `itrealvalue`
  let _ ← readNumber (0 : Int32)
  let starttime ← readNumber p.starttime
  skipFields (37 - 23 + 1)
  let exitSignal ← readNumber p.exitSignal
  let processor ← readNumber p.processor
  let numaNode := numaNodeOfCpu processor
  return { p with
    state, ppid, pgrp, session, ttyNr, tpgid, flags, minflt, cminflt, majflt, cmajflt, utime, stime
    cutime, cstime, priority, nice, numThreads, starttime, exitSignal, processor, numaNode
    time := utime + stime
    pinnedProcessor := if p.pinned then p.pinnedProcessor else processor
    pinnedNumaNode := if p.pinned then p.pinnedNumaNode else numaNode }

/-- The part of `read_stat_file` after the name. -/
def readFields (numaNodeOfCpu : Int32 → Int32) (p : StatFields R) : Reader (StatFields R) := do
  let state ← readChar p.state
  readNumbers numaNodeOfCpu p state

/-- The end of `read_stat_file`: if more than `MIN_UPDATE_TIME` has passed, the CPU time since then
is compared with that of the system. -/
def StatFields.updateCpuUse (p : StatFields R) : Option R → StatFields R
  | none => p
  | some period =>
    let share := RealT.ofRat (p.time - p.lastTimes).toNat / period
    let normal := if RealT.isNormal share then share else RealT.ofRat 0
    let cpuUse :=
      if RealT.ofRat (11 / 10) < normal then normal / RealT.ofRat p.numThreads.toInt else normal
    { p with cpuUse, lastTimes := p.time }

/-- `read_stat_file`, given the text of the file, if it is open, and the CPU time of the system,
if it is asked for. -/
def readStatFile (numaNodeOfCpu : Int32 → Int32) (period : Option R) (pid : Int32)
    (file : Option (List Char)) (p : StatFields R) : Bool × StatFields R :=
  match file with
  | none => (false, p)
  | some text =>
    let read : Reader (Bool × StatFields R) := do
      let pid' ← readNumber (0 : Int32)
      if pid' ≠ pid then return (false, p)
      else
        let _ ← getline ' ' []
        let _ ← getline ' ' []
        let p ← readFields numaNodeOfCpu p
        return (true, p.updateCpuUse period)
    (read (ofText text)).1

/-- What the kernel knows of a process. -/
structure StatLine where
  pid : Int32
  comm : List Char
  state : Char
  ppid : Int32
  pgrp : Int32
  session : Int32
  ttyNr : Int32
  tpgid : Int32
  flags : UInt32
  minflt : UInt64
  cminflt : UInt64
  majflt : UInt64
  cmajflt : UInt64
  utime : UInt64
  stime : UInt64
  cutime : Int64
  cstime : Int64
  priority : Int64
  nice : Int64
  numThreads : Int64
  /-- This is 0 since it is not maintained any more. -/
  itrealvalue : Int32
  starttime : UInt64
  /-- The numbers from `vsize` to `cnswap`, some of them signed. -/
  skipped : List ℤ
  exitSignal : Int32
  processor : Int32
  /-- The numbers after the processor, and the end of the line. -/
  rest : List Char
  state_notSpace : isSpace state = false
  skipped_length : skipped.length = 15
  skipped_lt : ∀ z ∈ skipped, z.natAbs < 2 ^ 64
  rest_delimited : Delimited rest

namespace StatLine

variable (line : StatLine)

/-- The numbers up to the processor. -/
def numbers : List Char :=
  field line.ppid.toInt ++ (field line.pgrp.toInt ++ (field line.session.toInt ++
    (field line.ttyNr.toInt ++ (field line.tpgid.toInt ++ (field line.flags.toNat ++
    (field line.minflt.toNat ++ (field line.cminflt.toNat ++ (field line.majflt.toNat ++
    (field line.cmajflt.toNat ++ (field line.utime.toNat ++ (field line.stime.toNat ++
    (field line.cutime.toInt ++ (field line.cstime.toInt ++ (field line.priority.toInt ++
    (field line.nice.toInt ++ (field line.numThreads.toInt ++ (field line.itrealvalue.toInt ++
    (field line.starttime.toNat ++ (line.skipped.flatMap field ++
    (field line.exitSignal.toInt ++ (field line.processor.toInt ++ [])))))))))))))))))))))

/-- The line that the kernel prints. -/
def print : List Char :=
  showInt line.pid.toInt ++ ' ' :: ('(' :: line.comm ++ ')' :: ' ' :: line.state ::
    (line.numbers ++ line.rest))

/-- The process in another state. -/
def withState (state : Char) (h : isSpace state = false) : StatLine :=
  { line with state, state_notSpace := h }

/-- The fields of a process as the kernel knows them. -/
def fields (numaNodeOfCpu : Int32 → Int32) (p : StatFields R) : StatFields R :=
  { p with
    state := line.state
    ppid := line.ppid
    pgrp := .ofInt line.pgrp.toInt
    session := .ofInt line.session.toInt
    ttyNr := .ofInt line.ttyNr.toInt
    tpgid := line.tpgid
    flags := line.flags.toUInt64
    minflt := line.minflt
    cminflt := line.cminflt
    majflt := line.majflt
    cmajflt := line.cmajflt
    utime := line.utime
    stime := line.stime
    cutime := .ofInt line.cutime.toInt
    cstime := .ofInt line.cstime.toInt
    time := line.utime + line.stime
    priority := line.priority
    nice := line.nice
    numThreads := line.numThreads
    starttime := line.starttime
    exitSignal := line.exitSignal
    processor := line.processor
    numaNode := numaNodeOfCpu line.processor
    pinnedProcessor := if p.pinned then p.pinnedProcessor else line.processor
    pinnedNumaNode := if p.pinned then p.pinnedNumaNode else numaNodeOfCpu line.processor }

end StatLine

/-! ### Fields -/

theorem reads_int32 (n old : Int32) : Reads (readNumber old) (field n.toInt) n :=
  reads_field (ofInt_int32 n) old

theorem reads_int64 (n old : Int64) : Reads (readNumber old) (field n.toInt) n :=
  reads_field (ofInt_int64 n) old

theorem reads_uint64 (n old : UInt64) : Reads (readNumber old) (field n.toNat) n := by
  have h := reads_field (ofInt_uint64_natCast n.toNat_lt) old
  rwa [UInt64.ofNat_toNat] at h

/-- A field of 32 bits is read into a longer one. -/
theorem reads_uint32_uint64 (n : UInt32) (old : UInt64) :
    Reads (readNumber old) (field n.toNat) n.toUInt64 := by
  have hn : n.toNat < 2 ^ 64 := n.toNat_lt.trans (by decide)
  have h := reads_field (ofInt_uint64_natCast hn) old
  rwa [UInt64.ofNat_uInt32ToNat] at h

/-- A signed field is read into an unsigned one. -/
theorem reads_int32_uint32 (n : Int32) (old : UInt32) :
    Reads (readNumber old) (field n.toInt) (.ofInt n.toInt) := by
  have hlow := n.le_toInt
  have hhigh := n.toInt_lt
  exact reads_field (ofInt_uint32 (by omega)) old

theorem reads_int64_uint64 (n : Int64) (old : UInt64) :
    Reads (readNumber old) (field n.toInt) (.ofInt n.toInt) := by
  have hlow := n.le_toInt
  have hhigh := n.toInt_lt
  exact reads_field (ofInt_uint64 (by omega)) old

theorem reads_skipFields {skipped : List ℤ} (h : ∀ z ∈ skipped, z.natAbs < 2 ^ 64) :
    Reads (skipFields skipped.length) (skipped.flatMap field) () := by
  induction skipped with
  | nil => exact Reads.pure ()
  | cons z skipped ih =>
    obtain ⟨hz, hrest⟩ := List.forall_mem_cons.mp h
    exact (reads_field (ofInt_uint64 hz) 0).bind (ih hrest)

variable {line : StatLine} {numaNodeOfCpu : Int32 → Int32} {period : Option R} {p : StatFields R}

omit [RealT R] in
/-- The numbers are read one after another. -/
theorem reads_numbers (line : StatLine) (numaNodeOfCpu : Int32 → Int32) (p : StatFields R) :
    Reads (readNumbers numaNodeOfCpu p line.state) line.numbers (line.fields numaNodeOfCpu p) := by
  have hskipped := reads_skipFields line.skipped_lt
  rw [line.skipped_length] at hskipped
  refine (reads_int32 line.ppid _).bind ?_
  refine (reads_int32_uint32 line.pgrp _).bind ?_
  refine (reads_int32_uint32 line.session _).bind ?_
  refine (reads_int32_uint32 line.ttyNr _).bind ?_
  refine (reads_int32 line.tpgid _).bind ?_
  refine (reads_uint32_uint64 line.flags _).bind ?_
  refine (reads_uint64 line.minflt _).bind ?_
  refine (reads_uint64 line.cminflt _).bind ?_
  refine (reads_uint64 line.majflt _).bind ?_
  refine (reads_uint64 line.cmajflt _).bind ?_
  refine (reads_uint64 line.utime _).bind ?_
  refine (reads_uint64 line.stime _).bind ?_
  refine (reads_int64_uint64 line.cutime _).bind ?_
  refine (reads_int64_uint64 line.cstime _).bind ?_
  refine (reads_int64 line.priority _).bind ?_
  refine (reads_int64 line.nice _).bind ?_
  refine (reads_int64 line.numThreads _).bind ?_
  refine (reads_int32 line.itrealvalue _).bind ?_
  refine (reads_uint64 line.starttime _).bind ?_
  refine hskipped.bind ?_
  refine (reads_int32 line.exitSignal _).bind ?_
  refine (reads_int32 line.processor _).bind ?_
  exact Reads.pure _

omit [RealT R] in
/-- **Fields.** -/
theorem readFields_reads (line : StatLine) (numaNodeOfCpu : Int32 → Int32) (p : StatFields R) :
    readFields numaNodeOfCpu p (ofText (line.state :: (line.numbers ++ line.rest))) =
      (line.fields numaNodeOfCpu p, ofText line.rest) := by
  rw [readFields, bind_apply, readChar_cons line.state_notSpace]
  exact (reads_numbers line numaNodeOfCpu p).eq _ line.rest_delimited

/-! ### Placement -/

/-- What a read does to the state, the processors and the nodes, whatever the numbers are. -/
structure Placed (numaNodeOfCpu : Int32 → Int32) (p : StatFields R) (state : Char)
    (p' : StatFields R) : Prop where
  state : p'.state = state
  numaNode : p'.numaNode = numaNodeOfCpu p'.processor
  pinned : p'.pinned = p.pinned
  pinnedProcessor : p'.pinnedProcessor = if p.pinned then p.pinnedProcessor else p'.processor
  pinnedNumaNode : p'.pinnedNumaNode = if p.pinned then p.pinnedNumaNode else p'.numaNode

omit [RealT R] in
theorem readNumbers_placed (numaNodeOfCpu : Int32 → Int32) (p : StatFields R) (state : Char) :
    Ensures (readNumbers numaNodeOfCpu p state) (Placed numaNodeOfCpu p state) := by
  unfold readNumbers
  iterate 22 refine .bind _ fun _ => ?_
  exact .pure ⟨rfl, rfl, rfl, rfl, rfl⟩

omit [RealT R] in
theorem readFields_placed (numaNodeOfCpu : Int32 → Int32) (p : StatFields R) :
    Ensures (readFields numaNodeOfCpu p) fun p' => ∃ state, Placed numaNodeOfCpu p state p' :=
  .bind _ fun state s => ⟨state, readNumbers_placed numaNodeOfCpu p state s⟩

theorem StatFields.updateCpuUse_placed {p' : StatFields R} {state : Char}
    (h : Placed numaNodeOfCpu p state p') (period : Option R) :
    Placed numaNodeOfCpu p state (p'.updateCpuUse period) := by
  rcases period with _ | period
  · exact h
  · exact ⟨h.state, h.numaNode, h.pinned, h.pinnedProcessor, h.pinnedNumaNode⟩

theorem readStatFile_placed {p' : StatFields R} {pid : Int32} {file : Option (List Char)}
    (h : readStatFile numaNodeOfCpu period pid file p = (true, p')) :
    ∃ state, Placed numaNodeOfCpu p state p' := by
  rcases file with _ | text
  · exact absurd h (by simp [readStatFile])
  · simp only [readStatFile, bind_apply] at h
    split at h
    · exact absurd h (by simp [pure_apply])
    · simp only [bind_apply, pure_apply, Prod.mk.injEq, true_and] at h
      subst h
      obtain ⟨state, hplaced⟩ := readFields_placed numaNodeOfCpu p _
      exact ⟨state, StatFields.updateCpuUse_placed hplaced period⟩

/-- What the placement of threads gets from a read. -/
def StatFields.toStat (p : StatFields R) : Stat R where
  state := p.state
  ppid := p.ppid.toNatClampNeg
  processor := p.processor.toNatClampNeg
  cpuUse := p.cpuUse

/-- The fields are those of a process as the placement of threads sees it. -/
structure StatFields.Shows (p : StatFields R) (q : Process R) : Prop where
  state : q.state = p.state
  ppid : q.ppid = p.ppid.toNatClampNeg
  processor : q.processor = p.processor.toNatClampNeg
  numaNode : q.numaNode = p.numaNode.toNatClampNeg
  pinned : q.pinned = p.pinned
  pinnedProcessor : q.pinnedProcessor = p.pinnedProcessor.toNatClampNeg
  pinnedNumaNode : q.pinnedNumaNode = p.pinnedNumaNode.toNatClampNeg
  cpuUse : q.cpuUse = p.cpuUse

/-- **Placement.** -/
theorem StatFields.Shows.readStatFile {T : Topology} {p' : StatFields R} {q : Process R}
    {pid : Int32} {file : Option (List Char)} (h : p.Shows q)
    (hread : readStatFile numaNodeOfCpu period pid file p = (true, p'))
    (hnode : T.numaNodeOfCpu p'.processor.toNatClampNeg =
      (numaNodeOfCpu p'.processor).toNatClampNeg) :
    p'.Shows (q.readStatFile T p'.toStat) := by
  obtain ⟨state, hplaced⟩ := readStatFile_placed hread
  have hnuma : T.numaNodeOfCpu p'.processor.toNatClampNeg = p'.numaNode.toNatClampNeg :=
    hnode.trans (congrArg Int32.toNatClampNeg hplaced.numaNode.symm)
  have hpinned : q.pinned = p'.pinned := h.pinned.trans hplaced.pinned.symm
  unfold Process.readStatFile
  dsimp only
  split_ifs with hq
  · have hp : p.pinned = true := h.pinned ▸ hq
    refine ⟨rfl, rfl, rfl, hnuma, hpinned, ?_, ?_, rfl⟩
    · rw [hplaced.pinnedProcessor, if_pos hp, ← h.pinnedProcessor]
    · rw [hplaced.pinnedNumaNode, if_pos hp, ← h.pinnedNumaNode]
  · have hp : ¬ p.pinned = true := h.pinned ▸ hq
    refine ⟨rfl, rfl, rfl, hnuma, hpinned, ?_, ?_, rfl⟩
    · rw [hplaced.pinnedProcessor, if_neg hp]
      rfl
    · rw [hplaced.pinnedNumaNode, if_neg hp]
      exact hnuma

/-- The first read is that of the constructor. -/
theorem StatFields.shows_new {T : Topology} {p' : StatFields R} {info : ProcInfo R} {pid : Int32}
    {file : Option (List Char)} (hinfo : info.stat = p'.toStat)
    (hread : readStatFile numaNodeOfCpu period pid file .new = (true, p'))
    (hnode : T.numaNodeOfCpu p'.processor.toNatClampNeg =
      (numaNodeOfCpu p'.processor).toNatClampNeg) :
    p'.Shows (Process.new T info) := by
  let blank : Process R :=
    { parent := info.parent, migratable := info.migratable, pinned := false, lwp := info.lwp
      state := Char.ofNat 0, ppid := 0, processor := 0, pinnedProcessor := 0, numaNode := 0
      pinnedNumaNode := 0, cpuUse := RealT.ofRat 0 }
  have hblank : StatFields.new.Shows blank := ⟨rfl, rfl, rfl, rfl, rfl, rfl, rfl, rfl⟩
  have hnew : Process.new T info = blank.readStatFile T p'.toStat := by
    rw [← hinfo]
    rfl
  rw [hnew]
  exact hblank.readStatFile hread hnode

/-! ### Names -/

/-- The fields that the placement of threads works with are read back. -/
structure Recovers (line : StatLine) (result : Bool × StatFields R) : Prop where
  success : result.1 = true
  state : result.2.state = line.state
  ppid : result.2.ppid = line.ppid
  utime : result.2.utime = line.utime
  stime : result.2.stime = line.stime
  priority : result.2.priority = line.priority
  numThreads : result.2.numThreads = line.numThreads
  starttime : result.2.starttime = line.starttime
  exitSignal : result.2.exitSignal = line.exitSignal
  processor : result.2.processor = line.processor

/-- What is read before the first space after the identifier is taken for the name. -/
theorem readStatFile_eq {name text : List Char} (hname : ' ' ∉ name) (pid : Int32) :
    readStatFile numaNodeOfCpu period pid
        (some (showInt pid.toInt ++ ' ' :: (name ++ ' ' :: text))) p =
      (true, (readFields numaNodeOfCpu p (ofText text)).1.updateCpuUse period) := by
  have hdelimited : Delimited (' ' :: (name ++ ' ' :: text)) := delimited_cons (by decide)
  have hpid := readNumber_showInt (ofInt_int32 pid) hdelimited 0
  have hspace : getline ' ' [] (ofText (' ' :: (name ++ ' ' :: text))) =
      ([], ofText (name ++ ' ' :: text)) := getline_append List.not_mem_nil []
  have hline : getline ' ' [] (ofText (name ++ ' ' :: text)) = (name, ofText text) :=
    getline_append hname []
  simp only [readStatFile, bind_apply, hpid, hspace, hline, ne_eq, not_true_eq_false, if_false,
    pure_apply]

/-- The CPU use is computed from the fields and leaves them alone. -/
theorem Recovers.updateCpuUse (h : Recovers line (true, p)) (period : Option R) :
    Recovers line (true, p.updateCpuUse period) := by
  rcases period with _ | period
  · exact h
  · exact ⟨rfl, h.state, h.ppid, h.utime, h.stime, h.priority, h.numThreads, h.starttime,
      h.exitSignal, h.processor⟩

theorem StatFields.updateCpuUse_state (p : StatFields R) (period : Option R) :
    (p.updateCpuUse period).state = p.state := by
  rcases period with _ | period
  · rfl
  · rfl

/-- If the name has a space, the state is looked for after this space. -/
theorem readStatFile_state {first second : List Char} (hcomm : line.comm = first ++ ' ' :: second)
    (hfirst : ' ' ∉ first) :
    (readStatFile numaNodeOfCpu period line.pid (some line.print) p).2.state =
      (readChar p.state (ofText (second ++ ')' :: ' ' :: line.state ::
        (line.numbers ++ line.rest)))).1 := by
  have hname : ' ' ∉ '(' :: first := by simpa using hfirst
  have hprint : line.print = showInt line.pid.toInt ++ ' ' :: ('(' :: first ++
      ' ' :: (second ++ ')' :: ' ' :: line.state :: (line.numbers ++ line.rest))) := by
    simp only [StatLine.print, hcomm, List.cons_append, List.append_assoc]
  rw [hprint, readStatFile_eq hname, StatFields.updateCpuUse_state, readFields, bind_apply,
    (readNumbers_placed ..).state]

theorem readStatFile_recovers (hcomm : ' ' ∉ line.comm) :
    Recovers line (readStatFile numaNodeOfCpu period line.pid (some line.print) p) := by
  have hname : ' ' ∉ '(' :: line.comm ++ [')'] := by simpa using hcomm
  have hprint : line.print = showInt line.pid.toInt ++ ' ' :: ('(' :: line.comm ++ [')'] ++
      ' ' :: line.state :: (line.numbers ++ line.rest)) := by
    rw [StatLine.print, List.append_assoc]
    rfl
  rw [hprint, readStatFile_eq hname, readFields_reads]
  exact Recovers.updateCpuUse ⟨rfl, rfl, rfl, rfl, rfl, rfl, rfl, rfl, rfl, rfl⟩ period

/-- **Names.** Some state may be found by accident in a name with a space, and so the process is
taken in all its states. -/
theorem recovers_iff (numaNodeOfCpu : Int32 → Int32) (period : Option R) (line : StatLine)
    (p : StatFields R) :
    (∀ (state : Char) (h : isSpace state = false), Recovers (line.withState state h)
        (readStatFile numaNodeOfCpu period line.pid (some (line.withState state h).print) p)) ↔
      ' ' ∉ line.comm := by
  constructor
  · intro h hspace
    obtain ⟨first, second, hcomm, hfirst⟩ := List.eq_append_cons_of_mem hspace
    have hparen : isSpace ')' = false := by decide
    obtain ⟨c, hc⟩ := exists_readChar_append hparen p.state second
    -- What is found after the space is the same for any state.
    have hstate : ∀ (state : Char) (hs : isSpace state = false), state = c := fun state hs => by
      have hread : (readStatFile numaNodeOfCpu period line.pid
          (some (line.withState state hs).print) p).2.state = _ := readStatFile_state hcomm hfirst
      exact ((h state hs).state.symm.trans hread).trans (hc _)
    have heq : 'R' = 'S' := (hstate 'R' (by decide)).trans (hstate 'S' (by decide)).symm
    exact absurd heq (by decide)
  · intro hcomm state h
    exact readStatFile_recovers hcomm

/-- A sleeping process with a space in its name. -/
def webContent : StatLine where
  pid := 1
  comm := ['W', 'e', 'b'] ++ ' ' :: ['C', 'o', 'n', 't', 'e', 'n', 't']
  state := 'S'
  ppid := 0
  pgrp := 1
  session := 1
  ttyNr := 0
  tpgid := -1
  flags := 0
  minflt := 0
  cminflt := 0
  majflt := 0
  cmajflt := 0
  utime := 0
  stime := 0
  cutime := 0
  cstime := 0
  priority := 20
  nice := 0
  numThreads := 1
  itrealvalue := 0
  starttime := 0
  skipped := List.replicate 15 0
  exitSignal := 17
  processor := 0
  rest := ['\n']
  state_notSpace := rfl
  skipped_length := rfl
  skipped_lt := by decide
  rest_delimited := delimited_cons rfl

/-- The name may contain a space, and then the state is not read back. -/
theorem not_recovers :
    ¬ ∀ (line : StatLine) (p : StatFields ℚ), Recovers line
      (readStatFile id none line.pid (some line.print) p) := by
  intro h
  have hweb : ' ' ∉ ['W', 'e', 'b'] := by decide
  have hstate := (h webContent StatFields.new).state
  rw [readStatFile_state rfl hweb, List.cons_append, readChar_cons (by decide)] at hstate
  exact absurd hstate (by decide : 'C' ≠ 'S')

end Thanos
