import Thanos.Library.PrintedDecimals
import Thanos.Library.Run
import Thanos.Migration.TicketsFile

/-!
# The tickets file over several sessions

The program reads the tickets file when it starts and writes the same file when it ends, with as
many digits as streams print. So what one session writes is what the next one reads.

* **Round trips** (`readTicketsFile_ticketsText`): what has been written is read back, rounded.
* **Sessions** (`ticketsFile_of_sessions`): the file does not change any more once it has been
  written by a session that has read it, as long as none writes it that has not.
-/

namespace Thanos

open TextStream

variable {R : Type} [Decimal R] [Printed R] {start o : TicketsOptions R} {file : Option (List Char)}
  {field : TicketsField}

/-- What `write_tickets_file` writes. A stream prints six significant digits. -/
def ticketsText (o : TicketsOptions R) : List Char :=
  TicketsField.all.flatMap fun field => printReal 5 (field.get o) ++ ['\n']

/-- `write_tickets_file`, given whether the file can be opened; an old content is lost then. -/
def writeTicketsFile (opens : Bool) (o : TicketsOptions R) (file : Option (List Char)) :
    Bool × Option (List Char) :=
  if opens then (true, some (ticketsText o)) else (false, file)

/-- What a session meets. -/
structure TicketsAccess where
  /-- `samples::init` succeeds. -/
  initialised : Bool
  /-- The file can be opened to read it. -/
  readable : Bool
  /-- The file can be opened to write it. -/
  writable : Bool

/-- What a session leaves of the file: `main_loop` calls `read_tickets_file` and `clean_end` calls
`write_tickets_file` for the same file. No ticket is changed in between. -/
def ticketsSession [RealT R] (start : TicketsOptions R) (file : Option (List Char))
    (access : TicketsAccess) : Option (List Char) :=
  -- if the sampling cannot be started, `clean_end` comes first: the defaults are written
  let o := if access.initialised then
      (readTicketsFile (if access.readable then file else none) start).2
    else start
  (writeTicketsFile access.writable o file).2

/-- Does a session read what is in the file? -/
def TicketsAccess.Reads (access : TicketsAccess) : Prop :=
  access.initialised = true ∧ access.readable = true

/-- No variable is infinite or not a number. -/
def TicketsOptions.Finite (o : TicketsOptions R) : Prop :=
  ∀ field : TicketsField, IsFinite (field.get o)

/-! ### Reading -/

theorem finite_readReal (hR : KeepsDigits R 5) {old : R} (hold : IsFinite old) (s : TextStream) :
    IsFinite (readReal old s).1 := by
  unfold readReal
  split
  · dsimp only
    split_ifs
    · exact hR.finite_ofNumeral _
    · exact hR.finite_zero
  · exact hold

omit [Decimal R] in
theorem TicketsOptions.Finite.set (ho : o.Finite) {value : R} (hvalue : IsFinite value) :
    (field.set o value).Finite := by
  intro field'
  by_cases heq : field' = field
  · rw [heq, TicketsField.get_set_self]
    exact hvalue
  · rw [TicketsField.get_set_of_ne heq]
    exact ho field'

theorem finite_readOptions (hR : KeepsDigits R 5) (fields : List TicketsField) (s : TextStream)
    (ho : o.Finite) : ((readOptions fields).run (s, o)).2.2.Finite := by
  induction fields generalizing s o with
  | nil => exact ho
  | cons field fields ih =>
    rw [run_readOptions_cons]
    exact ih _ (ho.set (finite_readReal hR (ho field) s))

variable [RealT R]

/-- Whatever the file contains, what is read is finite. -/
theorem finite_readTicketsFile (hR : KeepsDigits R 5) (hstart : start.Finite)
    (file : Option (List Char)) :
    (readTicketsFile file start).2.Finite := by
  cases file with
  | none => exact hstart
  | some content =>
    obtain ⟨s, o, hrun, -⟩ := exists_readOptions TicketsField.all (ofText content) start
    have hfinite := finite_readOptions hR TicketsField.all (ofText content) hstart
    rw [hrun] at hfinite
    rw [readTicketsFile, hrun]
    exact hfinite

/-! ### Round trips -/

omit [RealT R] in
theorem decimals_ticketsText (hR : KeepsDigits R 5) (ho : o.Finite) :
    decimals R TicketsField.all.length (ticketsText o) =
      some (TicketsField.all.map fun field => reread 5 (field.get o)) := by
  have hfinite : ∀ a ∈ TicketsField.all.map (TicketsField.get o), IsFinite a := by
    intro a ha
    obtain ⟨field, -, rfl⟩ := List.mem_map.mp ha
    exact ho field
  have hlines := decimals_lines hR _ hfinite
  rw [List.length_map, List.flatMap_map, List.map_map] at hlines
  exact hlines

/-- **Round trips.** -/
theorem readTicketsFile_ticketsText (hR : KeepsDigits R 5) (ho : o.Finite)
    (start : TicketsOptions R) :
    (readTicketsFile (some (ticketsText o)) start).1 = true ∧
      ∀ field : TicketsField,
        field.get (readTicketsFile (some (ticketsText o)) start).2 = reread 5 (field.get o) := by
  refine ⟨readTicketsFile_fst _ _, fun field => ?_⟩
  -- no variable is read twice, so none is overwritten by a later line
  have hnodup : TicketsField.all.Nodup := by decide
  obtain ⟨s, o', hrun, hget, -⟩ := exists_readOptions_decimals (healthy_ofText (ticketsText o))
    hnodup (decimals_ticketsText hR ho) start
  have hmem : field ∈ TicketsField.all := by cases field <;> decide
  rw [readTicketsFile, hrun]
  exact List.map_inj_left.mp hget field hmem

/-- What has been written and read is written in the same way. -/
theorem ticketsText_readTicketsFile (hR : KeepsDigits R 5) (ho : o.Finite)
    (start : TicketsOptions R) :
    ticketsText (readTicketsFile (some (ticketsText o)) start).2 = ticketsText o := by
  obtain ⟨-, hget⟩ := readTicketsFile_ticketsText hR ho start
  refine List.flatMap_congr fun field _ => ?_
  rw [hget field, (printsAlike_reread hR (ho field)).printReal_eq]

/-! ### Sessions -/

theorem ticketsSession_of_not_writable {access : TicketsAccess} (hwrites : ¬ access.writable) :
    ticketsSession start file access = file := by
  rw [ticketsSession, writeTicketsFile, if_neg hwrites]

theorem ticketsSession_of_reads {access : TicketsAccess} (hreads : access.Reads)
    (hwrites : access.writable = true) :
    ticketsSession start file access = some (ticketsText (readTicketsFile file start).2) := by
  rw [ticketsSession, hreads.1, hreads.2, hwrites, if_pos rfl, if_pos rfl, writeTicketsFile,
    if_pos rfl]

/-- A session that writes without having read writes the defaults. -/
theorem ticketsSession_of_not_reads {access : TicketsAccess} (hreads : ¬ access.Reads)
    (hwrites : access.writable = true) :
    ticketsSession start file access = some (ticketsText start) := by
  have ho : (if access.initialised then
      (readTicketsFile (if access.readable then file else none) start).2 else start) = start := by
    split_ifs with hinit hreadable
    · exact absurd ⟨hinit, hreadable⟩ hreads
    · rfl
    · rfl
  rw [ticketsSession, ho, hwrites, writeTicketsFile, if_pos rfl]

/-- A file that has been written stays as it is. -/
theorem ticketsSession_ticketsText (hR : KeepsDigits R 5) (ho : o.Finite) {access : TicketsAccess}
    (haccess : access.writable = true → access.Reads) :
    ticketsSession start (some (ticketsText o)) access = some (ticketsText o) := by
  by_cases hwrites : access.writable = true
  · rw [ticketsSession_of_reads (haccess hwrites) hwrites, ticketsText_readTicketsFile hR ho]
  · exact ticketsSession_of_not_writable hwrites

theorem run_ticketsSession_ticketsText (hR : KeepsDigits R 5) (ho : o.Finite)
    {accesses : List TicketsAccess}
    (hreads : ∀ access ∈ accesses, access.writable = true → access.Reads) :
    run (ticketsSession start) (some (ticketsText o)) accesses = some (ticketsText o) := by
  induction accesses with
  | nil => rfl
  | cons access accesses ih =>
    obtain ⟨haccess, hreads⟩ := List.forall_mem_cons.mp hreads
    rw [run_cons, ticketsSession_ticketsText hR ho haccess, ih hreads]

/-- The first session that can write the file decides. -/
theorem run_ticketsSession (hR : KeepsDigits R 5) (hstart : start.Finite)
    (file : Option (List Char)) {accesses : List TicketsAccess}
    (hreads : ∀ access ∈ accesses, access.writable = true → access.Reads)
    (hwritable : ∃ access ∈ accesses, access.writable = true) :
    run (ticketsSession start) file accesses =
      some (ticketsText (readTicketsFile file start).2) := by
  induction accesses with
  | nil => simp at hwritable
  | cons access accesses ih =>
    obtain ⟨haccess, hreads⟩ := List.forall_mem_cons.mp hreads
    rw [run_cons]
    by_cases hwrites : access.writable = true
    · -- this session writes the file, and the later ones write the same
      rw [ticketsSession_of_reads (haccess hwrites) hwrites]
      exact run_ticketsSession_ticketsText hR (finite_readTicketsFile hR hstart _) hreads
    · rw [ticketsSession_of_not_writable hwrites]
      obtain ⟨access', hmem, hwrites'⟩ := hwritable
      -- the file is as before: a later session writes it
      rcases List.mem_cons.mp hmem with rfl | hmem
      · exact absurd hwrites' hwrites
      · exact ih hreads ⟨access', hmem, hwrites'⟩

/-- Sessions that write without having read leave the defaults. -/
theorem ticketsSession_cases (hR : KeepsDigits R 5) (hstart : start.Finite)
    (file' : Option (List Char)) (access : TicketsAccess)
    (hfile : file' = file ∨ file' = some (ticketsText (readTicketsFile file start).2) ∨
      file' = some (ticketsText start)) :
    ticketsSession start file' access = file ∨
      ticketsSession start file' access = some (ticketsText (readTicketsFile file start).2) ∨
      ticketsSession start file' access = some (ticketsText start) := by
  by_cases hwrites : access.writable = true
  · by_cases hreads : access.Reads
    · rcases hfile with rfl | rfl | rfl
      · exact Or.inr (Or.inl (ticketsSession_of_reads hreads hwrites))
      · rw [ticketsSession_ticketsText hR (finite_readTicketsFile hR hstart _) fun _ => hreads]
        exact Or.inr (Or.inl rfl)
      · rw [ticketsSession_ticketsText hR hstart fun _ => hreads]
        exact Or.inr (Or.inr rfl)
    · exact Or.inr (Or.inr (ticketsSession_of_not_reads hreads hwrites))
  · rw [ticketsSession_of_not_writable hwrites]
    exact hfile

/-- **Sessions.** Whatever the file contains, whether or not the sampling can be started and
whenever the file cannot be opened, it is as it was at the start, or shows what is read from it at
the start, or the defaults. If every session that writes it has read it, it does not change any
more once it has been written, and every later session reads the same values: those that were
read at the start, with six significant digits. -/
theorem ticketsFile_of_sessions (hR : KeepsDigits R 5) (hstart : start.Finite)
    (file : Option (List Char)) (accesses : List TicketsAccess) :
    (run (ticketsSession start) file accesses = file ∨
      run (ticketsSession start) file accesses =
        some (ticketsText (readTicketsFile file start).2) ∨
      run (ticketsSession start) file accesses = some (ticketsText start)) ∧
    ((∀ access ∈ accesses, access.writable = true → access.Reads) →
      (∃ access ∈ accesses, access.writable = true) →
        run (ticketsSession start) file accesses =
            some (ticketsText (readTicketsFile file start).2) ∧
          (readTicketsFile (run (ticketsSession start) file accesses) start).1 = true ∧
          ∀ field : TicketsField,
            field.get (readTicketsFile (run (ticketsSession start) file accesses) start).2 =
              reread 5 (field.get (readTicketsFile file start).2)) := by
  refine ⟨run_invariant (I := fun file' => file' = file ∨
      file' = some (ticketsText (readTicketsFile file start).2) ∨ file' = some (ticketsText start))
    (Or.inl rfl) (ticketsSession_cases hR hstart), fun hreads hwritable => ?_⟩
  have hrun := run_ticketsSession hR hstart file hreads hwritable
  obtain ⟨hfst, hget⟩ :=
    readTicketsFile_ticketsText hR (finite_readTicketsFile hR hstart file) start
  rw [hrun]
  exact ⟨rfl, hfst, hget⟩

/-- A ticket with eight digits. -/
def longTicket : List Char :=
  ['0', '.', '1', '2', '3', '4', '5', '6', '7', '8', '\n']

/-- Two sessions that read and write the file, and one between them that can do neither. -/
def threeSessions : List TicketsAccess :=
  [⟨true, true, true⟩, ⟨false, true, false⟩, ⟨true, true, true⟩]

/-- The values that the next session reads. -/
def longTicketValues : TicketsOptions ℚ :=
  (readTicketsFile (run (ticketsSession (TicketsOptions.default 1 64 : TicketsOptions ℚ))
    (some longTicket) threeSessions) (.default 1 64)).2

/-- Six of the digits are left. -/
theorem ticketsFile_of_sessions_longTicket :
    TicketsField.memCellWorse.get longTicketValues = 123457 / 1000000 ∧
      ∀ field : TicketsField, field.get longTicketValues =
        reread 5 (field.get (readTicketsFile (some longTicket) (.default 1 64)).2) := by
  have hstart : (TicketsOptions.default 1 64 : TicketsOptions ℚ).Finite := fun _ => ⟨_, _, rfl⟩
  obtain ⟨-, -, hget⟩ := (ticketsFile_of_sessions (keepsDigits_rat 5) hstart (some longTicket)
    threeSessions).2 (by simp [threeSessions, TicketsAccess.Reads]) (by decide)
  refine ⟨?_, hget⟩
  rw [longTicketValues, hget]
  decide +kernel

end Thanos
