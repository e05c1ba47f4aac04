import Thanos.Library.Decimals
import Thanos.Migration.Tickets

/-!
# The tickets file

`read_tickets_file` reads six ticket values and two thresholds from a file. If that fails it is
meant to put the defaults back, in a `catch` clause.

* **Streams** (`not_throws`): a stream does not throw unless it is told to, and this one is not.
* **Files** (`readsTickets_iff`): the file is taken for a good one whatever is in it.
-/

namespace Thanos

open TextStream

/-! ### The parameters -/

/-- The variables of `tickets.cpp`. -/
structure TicketsOptions (R : Type) where
  settings : Settings R
  undoThreshold : R

/-- The variables that are in the file. -/
inductive TicketsField
  | memCellWorse
  | memCellNoData
  | memCellBetter
  | freeCore
  | prefNode
  | underPerf
  | perfThreshold
  | undoThreshold
  deriving DecidableEq

namespace TicketsField

variable {R : Type}

/-- The variables in the order in which they are read. -/
def all : List TicketsField :=
  [memCellWorse, memCellNoData, memCellBetter, freeCore, prefNode, underPerf, perfThreshold,
    undoThreshold]

def get (o : TicketsOptions R) : TicketsField → R
  | memCellWorse => o.settings.ticketsMemCellWorse.value
  | memCellNoData => o.settings.ticketsMemCellNoData.value
  | memCellBetter => o.settings.ticketsMemCellBetter.value
  | freeCore => o.settings.ticketsFreeCore.value
  | prefNode => o.settings.ticketsPrefNode.value
  | underPerf => o.settings.ticketsUnderPerf.value
  | perfThreshold => o.settings.perfThreshold
  | undoThreshold => o.undoThreshold

/-- The value of a ticket is set, its mask stays. -/
def set (o : TicketsOptions R) (value : R) : TicketsField → TicketsOptions R
  | memCellWorse =>
    { o with settings.ticketsMemCellWorse := { o.settings.ticketsMemCellWorse with value } }
  | memCellNoData =>
    { o with settings.ticketsMemCellNoData := { o.settings.ticketsMemCellNoData with value } }
  | memCellBetter =>
    { o with settings.ticketsMemCellBetter := { o.settings.ticketsMemCellBetter with value } }
  | freeCore => { o with settings.ticketsFreeCore := { o.settings.ticketsFreeCore with value } }
  | prefNode => { o with settings.ticketsPrefNode := { o.settings.ticketsPrefNode with value } }
  | underPerf => { o with settings.ticketsUnderPerf := { o.settings.ticketsUnderPerf with value } }
  | perfThreshold => { o with settings.perfThreshold := value }
  | undoThreshold => { o with undoThreshold := value }

/-- The defaults. -/
def default [RealT R] : TicketsField → R
  | memCellWorse => RealT.ofRat 1
  | memCellNoData => RealT.ofRat 2
  | memCellBetter => RealT.ofRat 4
  | freeCore => RealT.ofRat 2
  | prefNode => RealT.ofRat 4
  | underPerf => RealT.ofRat 3
  | perfThreshold => RealT.ofRat (8 / 10)
  | undoThreshold => RealT.ofRat (9 / 10)

end TicketsField

/-- The masks of the tickets. -/
def TicketsOptions.masks {R : Type} (o : TicketsOptions R) : List UInt8 :=
  [o.settings.ticketsMemCellWorse.mask, o.settings.ticketsMemCellNoData.mask,
    o.settings.ticketsMemCellBetter.mask, o.settings.ticketsFreeCore.mask,
    o.settings.ticketsPrefNode.mask, o.settings.ticketsUnderPerf.mask]

/-- The variables before any option or tickets file is read. -/
def TicketsOptions.default {R : Type} [RealT R] (minimumLatency cacheLineSize : ℤ) :
    TicketsOptions R :=
  ⟨.default minimumLatency cacheLineSize, RealT.ofRat (9 / 10)⟩

namespace TicketsField

variable {R : Type} {field field' : TicketsField} {o : TicketsOptions R}

theorem get_set_self {value : R} : field.get (field.set o value) = value := by
  cases field <;> rfl

theorem get_set_of_ne {value : R} (h : field' ≠ field) :
    field'.get (field.set o value) = field'.get o := by
  cases field <;> cases field' <;> first | rfl | exact absurd rfl h

theorem masks_set {value : R} : (field.set o value).masks = o.masks := by
  cases field <;> rfl

/-- The variables start with the defaults. -/
theorem get_default [RealT R] (minimumLatency cacheLineSize : ℤ) :
    field.get (TicketsOptions.default minimumLatency cacheLineSize : TicketsOptions R) =
      field.default := by
  cases field <;> rfl

end TicketsField

/-! ### Reading -/

section Reading

variable {R : Type} [Decimal R]

/-- `exceptions()`: which of the flags for the end and for a failure make the stream throw. It has
not been set. -/
def exceptions : Bool × Bool :=
  (false, false)

/-- The flags of the stream are such that it throws. -/
def throws (s : TextStream) : Bool :=
  (exceptions.1 && s.eof) || (exceptions.2 && s.failed)

/-- `file >> field`: the field, and then the flags are checked. -/
def extract (field : TicketsField) :
    ExceptT Unit (StateM (TextStream × TicketsOptions R)) Unit := do
  let (s, o) ← get
  let (value, s) := readReal (field.get o) s
  set (s, field.set o value)
  if throws s then throw ()

/-- The `try` block. -/
def readOptions : List TicketsField → ExceptT Unit (StateM (TextStream × TicketsOptions R)) Unit
  | [] => pure ()
  | field :: fields => do
    extract field
    readOptions fields

variable {field : TicketsField} {fields : List TicketsField} {o : TicketsOptions R}
  {s : TextStream} {values : List R}

/-- **Streams.** -/
theorem not_throws : throws s = false :=
  rfl

/-- A value is stored whether or not the reading fails. -/
theorem run_extract :
    (extract field).run (s, o) =
      (.ok (), (readReal (field.get o) s).2, field.set o (readReal (field.get o) s).1) := by
  unfold extract
  simp only [not_throws, Bool.false_eq_true, if_false]
  rfl

theorem run_readOptions_cons :
    (readOptions (field :: fields)).run (s, o) =
      (readOptions fields).run
        ((readReal (field.get o) s).2, field.set o (readReal (field.get o) s).1) := by
  rw [readOptions, ExceptT.run_bind]
  change (match (extract field).run (s, o) with | (a, s') => _) = _
  rw [run_extract]
  rfl

/-- The `catch` clause is not reached, and no mask is changed. -/
theorem exists_readOptions (fields : List TicketsField) (s : TextStream) (o : TicketsOptions R) :
    ∃ s' o', (readOptions fields).run (s, o) = (.ok (), s', o') ∧ o'.masks = o.masks := by
  induction fields generalizing s o with
  | nil => exact ⟨s, o, rfl, rfl⟩
  | cons field fields ih =>
    obtain ⟨s', o', hrun, hmasks⟩ := ih (readReal (field.get o) s).2
      (field.set o (readReal (field.get o) s).1)
    rw [run_readOptions_cons]
    exact ⟨s', o', hrun, hmasks.trans TicketsField.masks_set⟩

/-- If there are enough numbers, they are stored in the variables. -/
theorem exists_readOptions_decimals (hs : Healthy s) (hnodup : fields.Nodup)
    (h : decimals R fields.length s.chars = some values) (o : TicketsOptions R) :
    ∃ s' o', (readOptions fields).run (s, o) = (.ok (), s', o') ∧
      fields.map (TicketsField.get o') = values ∧ ∀ field ∉ fields, field.get o' = field.get o := by
  induction fields generalizing s o values with
  | nil =>
    obtain rfl := Option.some.inj h
    exact ⟨s, o, rfl, rfl, fun _ _ => rfl⟩
  | cons field fields ih =>
    obtain ⟨hnew, hnodup⟩ := List.nodup_cons.mp hnodup
    obtain ⟨value, s₁, values, rfl, hread, hs₁, hvalues⟩ := exists_readReal hs h (field.get o)
    obtain ⟨s', o', hrun, hget, hkeep⟩ := ih hs₁ hnodup hvalues (field.set o value)
    refine ⟨s', o', ?_, ?_, fun field' hfield' => ?_⟩
    · rw [run_readOptions_cons, hread]
      exact hrun
    · rw [List.map_cons, hget, hkeep field hnew, TicketsField.get_set_self]
    · obtain ⟨hne, hrest⟩ := not_or.mp (mt List.mem_cons.mpr hfield')
      rw [hkeep field' hrest, TicketsField.get_set_of_ne hne]

variable [RealT R]

/-- What the `catch` clause does. -/
def restoreDefaults (o : TicketsOptions R) : TicketsOptions R :=
  TicketsField.all.foldl (fun o field => field.set o field.default) o

/-- The result after the `try` block, with the `catch` clause. -/
def afterTry : Except Unit Unit × TextStream × TicketsOptions R → Bool × TicketsOptions R
  | (.ok (), _, o) => (true, o)
  | (.error (), _, o) => (false, restoreDefaults o)

/-- `read_tickets_file`, given the content of the file, or `none` if it cannot be opened. -/
def readTicketsFile (content : Option (List Char)) (o : TicketsOptions R) :
    Bool × TicketsOptions R :=
  match content with
  | none => (false, o)
  | some chars => afterTry ((readOptions TicketsField.all).run (ofText chars, o))

/-- `read_tickets_file` takes the numbers from the file if all of them are there, and otherwise
fails and puts the defaults back; the masks stay as they are. -/
def ReadsTickets (content : List Char) (o : TicketsOptions R) : Prop :=
  (∀ values, decimals R 8 content = some values →
    (readTicketsFile (some content) o).1 = true ∧
      TicketsField.all.map (TicketsField.get (readTicketsFile (some content) o).2) = values) ∧
  (decimals R 8 content = none →
    (readTicketsFile (some content) o).1 = false ∧
      ∀ field : TicketsField, field.get (readTicketsFile (some content) o).2 = field.default) ∧
  (readTicketsFile (some content) o).2.masks = o.masks

/-- An open file is always taken for a good one. -/
theorem readTicketsFile_fst (content : List Char) (o : TicketsOptions R) :
    (readTicketsFile (some content) o).1 = true := by
  obtain ⟨s', o', hrun, -⟩ := exists_readOptions TicketsField.all (ofText content) o
  rw [readTicketsFile, hrun, afterTry]

theorem masks_readTicketsFile (content : List Char) (o : TicketsOptions R) :
    (readTicketsFile (some content) o).2.masks = o.masks := by
  obtain ⟨s', o', hrun, hmasks⟩ := exists_readOptions TicketsField.all (ofText content) o
  rw [readTicketsFile, hrun, afterTry]
  exact hmasks

theorem isSome_of_readsTickets {content : List Char} (h : ReadsTickets content o) :
    (decimals R 8 content).isSome := by
  obtain ⟨-, hmissing, -⟩ := h
  rw [Option.isSome_iff_ne_none]
  intro hnone
  exact Bool.false_ne_true ((hmissing hnone).1.symm.trans (readTicketsFile_fst content o))

/-- **Files.** -/
theorem readsTickets_iff (content : List Char) (o : TicketsOptions R) :
    ReadsTickets content o ↔ (decimals R 8 content).isSome := by
  refine ⟨isSome_of_readsTickets, fun hsome => ⟨fun values hvalues => ?_, fun hnone => ?_,
    masks_readTicketsFile content o⟩⟩
  · have hnodup : TicketsField.all.Nodup := by decide
    obtain ⟨s', o', hrun, hget, -⟩ :=
      exists_readOptions_decimals (healthy_ofText content) hnodup hvalues o
    refine ⟨readTicketsFile_fst content o, ?_⟩
    rw [readTicketsFile, hrun, afterTry]
    exact hget
  · rw [hnone] at hsome
    exact absurd hsome Bool.false_ne_true

end Reading

/-! ### A file that ends in the middle -/

/-- Two numbers, and something that is not one. -/
def malformed : List Char :=
  ['1', ' ', '2', '\n', 'x']

theorem not_readsTickets_malformed :
    (readTicketsFile (some malformed) (TicketsOptions.default 1 64 : TicketsOptions ℚ)).1 = true ∧
      ¬ ReadsTickets malformed (TicketsOptions.default 1 64 : TicketsOptions ℚ) := by
  have hnone : decimals ℚ 8 malformed = none := rfl
  refine ⟨readTicketsFile_fst malformed _, fun h => ?_⟩
  have hsome := isSome_of_readsTickets h
  rw [hnone] at hsome
  exact Bool.false_ne_true hsome

end Thanos
