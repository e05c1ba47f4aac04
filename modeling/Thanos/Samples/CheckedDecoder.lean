import Thanos.Samples.PerfEvent

/-!
# The decoder with checks

`transfer_data_from_buffer_to_structure_allifs` goes by the bits of the sample type and of the
read format, and gives up as soon as a field is not there. The decoder that is used instead has
the layout built in that `setup_group` configures.

* **Fields** (`Fills.bind`): programs that fill a sample field by field.
* **Agreement** (`decoders_agree`): on a complete record in the configured layout the decoders
  do the same.
-/

namespace Thanos

open PerfBuffer

/-! ### Sample types and read formats -/

/-- `perf_event_sample_format`, as far as the decoder goes. -/
inductive PerfSample
  | ip
  | tid
  | time
  | addr
  | read
  | callchain
  | id
  | cpu
  | period
  | streamId
  | raw
  | weight
  | dataSrc

/-- The bits of the sample type. -/
def PerfSample.mask : PerfSample → UInt64
  | ip => 0x1
  | tid => 0x2
  | time => 0x4
  | addr => 0x8
  | read => 0x10
  | callchain => 0x20
  | id => 0x40
  | cpu => 0x80
  | period => 0x100
  | streamId => 0x200
  | raw => 0x400
  | weight => 0x4000
  | dataSrc => 0x8000

/-- `perf_event_read_format`, as far as the decoder goes. -/
inductive PerfFormat
  | totalTimeEnabled
  | totalTimeRunning
  | id
  | group

/-- The bits of the read format. -/
def PerfFormat.mask : PerfFormat → UInt64
  | totalTimeEnabled => 0x1
  | totalTimeRunning => 0x2
  | id => 0x4
  | group => 0x8

/-- `PERF_FORMAT_SCALE`. -/
def perfFormatScale : UInt64 :=
  PerfFormat.totalTimeEnabled.mask ||| PerfFormat.totalTimeRunning.mask

/-- The attributes of an event that say what its samples consist of. -/
structure PerfEventAttr where
  sampleType : UInt64
  readFormat : UInt64

/-- The attributes that `setup_group` sets for a group of `num_fds_group` events. -/
def setupGroup (numFdsGroup : ℕ) : PerfEventAttr :=
  let sampleType := PerfSample.ip.mask ||| PerfSample.tid.mask ||| PerfSample.read.mask |||
    PerfSample.time.mask ||| PerfSample.period.mask ||| PerfSample.streamId.mask |||
    PerfSample.addr.mask ||| PerfSample.cpu.mask ||| PerfSample.weight.mask |||
    PerfSample.dataSrc.mask
  if 1 < numFdsGroup then
    { sampleType := sampleType ||| PerfSample.read.mask
      readFormat := perfFormatScale ||| (PerfFormat.group.mask ||| PerfFormat.id.mask) }
  else { sampleType := sampleType, readFormat := perfFormatScale }

namespace PerfEventAttr

variable (attr : PerfEventAttr)

/-- A test of the sample type. -/
def samples (field : PerfSample) : Bool :=
  attr.sampleType &&& field.mask ≠ 0

/-- A test of the read format. -/
def reads (format : PerfFormat) : Bool :=
  attr.readFormat &&& format.mask ≠ 0

end PerfEventAttr

/-! ### The decoder -/

/-- What the decoder updates besides the buffer: the sample and `sz`. -/
structure Decoding where
  sample : Pebs
  sz : UInt64

/-- A part of the decoder, which leaves it if a read fails. -/
abbrev Section (α : Type) :=
  OptionT (StateT Decoding (StateM PerfBuffer)) α

namespace Section

/-- `perf_read_buffer_64`, and its bytes are taken off `sz`. -/
def readWord : Section UInt64 := fun d hw =>
  match hw.perfReadBuffer 8 with
  | none => ((none, d), hw)
  | some (bytes, hw) => ((some (UInt64.ofNat (leNat bytes)), { d with sz := d.sz - 8 }), hw)

/-- `perf_read_buffer` into two 32-bit fields. -/
def readPair : Section (ℕ × ℕ) := fun d hw =>
  match hw.perfReadBuffer 8 with
  | none => ((none, d), hw)
  | some (bytes, hw) =>
    ((some (leNat (bytes.take 4), leNat (bytes.drop 4)), { d with sz := d.sz - 8 }), hw)

/-- Fields of the sample are set. -/
def fill (f : Pebs → Pebs) : Section Unit := fun d hw =>
  ((some (), { d with sample := f d.sample }), hw)

/-- `perf_handle_raw`, whose result is converted to `int`. The buffer can always be allocated. -/
def handleRaw : Section Int32 := fun d hw =>
  match hw.perfReadBuffer 4 with
  | none => ((some (-1), d), hw)
  | some (bytes, hw) =>
    let rawSz := leNat bytes
    match hw.perfReadBuffer (UInt64.ofNat rawSz) with
    | none => ((some (-1), d), hw)
    | some (_, hw) => ((some (Int32.ofNat (4 + rawSz)), d), hw)

/-- `sz -= ret`. -/
def takeOff (ret : Int32) : Section Unit := fun d hw =>
  ((some (), { d with sz := d.sz - ret.toInt64.toUInt64 }), hw)

variable (R : Type) [RealT R] (attr : PerfEventAttr)

/-- A part for a field of the sample type. -/
def ifSampled (field : PerfSample) (part : Section Unit) : Section Unit :=
  if attr.samples field then part else pure ()

/-- A time that is read if the read format has it, and 1 otherwise. -/
def readTime (format : PerfFormat) : Section UInt64 :=
  if attr.reads format then readWord else pure 1

/-- An identifier, whose value is not used. -/
def readId : Section Unit :=
  if attr.reads .id then discard readWord else pure ()

/-- The first field. -/
def iip : Section Unit :=
  if attr.samples .ip then do
    let val64 ← readWord
    fill fun sample => { sample with iip := val64 }
  else fill fun sample => { sample with iip := 0 }

/-- The fields before the values. -/
def identity : Section Unit := do
  iip attr
  ifSampled attr .tid do
    let pid ← readPair
    fill fun sample => { sample with tid := pid.2, pid := pid.1 }
  ifSampled attr .time do
    let val64 ← readWord
    fill fun sample => { sample with time := val64 }
  ifSampled attr .addr do
    let val64 ← readWord
    fill fun sample => { sample with sampleAddr := val64 }
  ifSampled attr .id (discard readWord)
  ifSampled attr .streamId (discard readWord)
  ifSampled attr .cpu do
    let cpu ← readPair
    fill fun sample => { sample with cpu := cpu.1 }
  ifSampled attr .period (discard readWord)

/-- The loop over the counters of a group. -/
def counters (timeEnabled timeRunning : UInt64) : ℕ → Section Unit
  | 0 => pure ()
  | nr + 1 => do
    let value ← readWord
    readId attr
    fill fun sample => { sample with value := perfScale R value timeEnabled timeRunning }
    counters timeEnabled timeRunning nr

/-- The values with `PERF_FORMAT_GROUP` after their number. -/
def groupCounters (nr : UInt64) : Section Unit := do
  let timeEnabled ← readTime attr .totalTimeEnabled
  let timeRunning ← readTime attr .totalTimeRunning
  fill fun sample => { sample with timeEnabled := timeEnabled, timeRunning := timeRunning }
  counters R attr timeEnabled timeRunning nr.toNat

/-- The values with `PERF_FORMAT_GROUP`. -/
def groupValues : Section Unit := do
  let nr ← readWord
  groupCounters R attr nr

/-- The values without `PERF_FORMAT_GROUP`. -/
def singleValue : Section Unit := do
  let val64 ← readWord
  let timeEnabled ← readTime attr .totalTimeEnabled
  let timeRunning ← readTime attr .totalTimeRunning
  readId attr
  fill fun sample => { sample with
    timeEnabled := timeEnabled
    timeRunning := timeRunning
    value := perfScale R val64 timeEnabled timeRunning }

/-- The loop over a call chain. -/
def chain : ℕ → Section Unit
  | 0 => pure ()
  | nr + 1 => do
    discard readWord
    chain nr

/-- A call chain, which is not used. -/
def callchain : Section Unit := do
  let nr ← readWord
  chain nr.toNat

/-- Raw data, which is not used. -/
def raw : Section Unit := do
  let ret ← handleRaw
  if ret = -1 then failure else takeOff ret

/-- The fields after the values. -/
def source : Section Unit := do
  ifSampled attr .callchain callchain
  ifSampled attr .raw raw
  ifSampled attr .weight do
    let val64 ← readWord
    fill fun sample => { sample with weight := val64 }
  ifSampled attr .dataSrc do
    let val64 ← readWord
    fill fun sample => { sample with dsrc := val64 }

/-- The values. -/
def values : Section Unit :=
  if attr.reads .group then groupValues R attr else singleValue R attr

/-- All fields of a sample. -/
def all : Section Unit := do
  identity attr
  ifSampled attr .read (values R attr)
  source attr

end Section

/-- `transfer_data_from_buffer_to_structure_allifs`. -/
def transferDataFromBufferToStructureAllifs (R : Type) [RealT R] (attr : PerfEventAttr)
    (ehdr : PerfEventHeader) (sample : Pebs) : StateM PerfBuffer (ℤ × Pebs) := fun hw =>
  match Section.all R attr { sample := sample, sz := ehdr.size.toUInt64 - 8 } hw with
  | ((none, d), hw) => ((-1, d.sample), hw)
  | ((some (), d), hw) =>
    ((0, d.sample), if d.sz ≠ 0 then hw.perfSkipBuffer d.sz else hw)

/-! ### Sections that succeed -/

/-- A part of the decoder reads `n` of the bytes that are there, returns `a` and changes the
sample by `f`. -/
def FillsAt {α : Type} (hw : PerfBuffer) (m : Section α) (n : ℕ) (a : α) (f : Pebs → Pebs) :
    Prop :=
  ∀ sample sz, ParsesAt hw (m { sample := sample, sz := sz }) n
    (some a, { sample := f sample, sz := sz - UInt64.ofNat n })

/-- A part of the decoder that succeeds if there are enough bytes. -/
def Fills {α : Type} (m : Section α) (n : ℕ) (a : List UInt8 → α)
    (f : List UInt8 → Pebs → Pebs) : Prop :=
  ∀ hw : PerfBuffer, n ≤ hw.rest.length → FillsAt hw m n (a hw.rest) (f hw.rest)

section Fills

variable {α β : Type} {hw : PerfBuffer} {n n' : ℕ}

theorem Section.bind_apply {m : Section α} {k : α → Section β} {d : Decoding} :
    (m >>= k) d = m d >>= fun r => match r with
      | (some a, d) => k a d
      | (none, d) => pure (none, d) := by
  have hcases : (m >>= k) d = m d >>= fun r =>
      (match r.1 with
        | some a => k a
        | none => (fun d => pure (none, d) : Section β)) r.2 := rfl
  rw [hcases]
  congr 1
  funext r
  obtain ⟨_ | a, d'⟩ := r
  · rfl
  · rfl

theorem FillsAt.bind {m : Section α} {k : α → Section β} {a : α} {b : β} {f g : Pebs → Pebs}
    (h : FillsAt hw m n a f) (h' : ∀ hw', Advances hw n hw' → FillsAt hw' (k a) n' b g) :
    FillsAt hw (m >>= k) (n + n') b (g ∘ f) := by
  intro sample sz
  have hsz : sz - UInt64.ofNat (n + n') = sz - UInt64.ofNat n - UInt64.ofNat n' := by
    rw [UInt64.ofNat_add]
    grind
  rw [hsz]
  rw [Section.bind_apply]
  exact (h sample sz).bind fun hw' hadv => h' hw' hadv (f sample) (sz - UInt64.ofNat n)

theorem FillsAt.seq {m : Section Unit} {part : Section β} {b : β} {f g : Pebs → Pebs}
    (h : FillsAt hw m n () f) (h' : ∀ hw', Advances hw n hw' → FillsAt hw' part n' b g) :
    FillsAt hw (m >>= fun _ => part) (n + n') b (g ∘ f) :=
  h.bind h'

/-- **Fields.** -/
theorem Fills.bind {m : Section α} {k : α → Section β} {a : List UInt8 → α}
    {b : α → List UInt8 → β} {f : List UInt8 → Pebs → Pebs} {g : α → List UInt8 → Pebs → Pebs}
    (h : Fills m n a f) (h' : ∀ x, Fills (k x) n' (b x) (g x)) :
    Fills (m >>= k) (n + n') (fun bytes => b (a bytes) (bytes.drop n))
      fun bytes => g (a bytes) (bytes.drop n) ∘ f bytes := by
  intro hw hlength
  refine (h hw (by omega)).bind fun hw' hadv => ?_
  have hrest : n' ≤ hw'.rest.length := by
    rw [hadv.rest_eq, List.length_drop]
    omega
  have hk := h' (a hw.rest) hw' hrest
  rwa [hadv.rest_eq] at hk

theorem Fills.pure (a : α) : Fills (Pure.pure a) 0 (fun _ => a) fun _ => id :=
  fun hw _ sample sz => by
    have hsz : sz - UInt64.ofNat 0 = sz := UInt64.sub_zero sz
    rw [hsz]
    exact ⟨hw, rfl, .refl⟩

theorem Fills.congr {m : Section α} {a : List UInt8 → α} {f f' : List UInt8 → Pebs → Pebs}
    (h : Fills m n a f) (hf : ∀ bytes sample, f bytes sample = f' bytes sample) :
    Fills m n a f' := by
  have heq : f = f' := by
    funext bytes sample
    exact hf bytes sample
  rwa [← heq]

theorem fills_fill (f : Pebs → Pebs) : Fills (Section.fill f) 0 (fun _ => ()) fun _ => f :=
  fun hw _ sample sz => by
    have hsz : sz - UInt64.ofNat 0 = sz := UInt64.sub_zero sz
    rw [hsz]
    exact ⟨hw, rfl, .refl⟩

theorem fills_readWord : Fills Section.readWord (8 * 1) (word 0) fun _ => id := by
  intro hw hlength sample sz
  obtain ⟨hw', hread, hadv⟩ :=
    perfReadBuffer_eq (show (8 : UInt64).toNat ≤ hw.rest.length from hlength) (by decide)
  exact ⟨hw', by rw [Section.readWord, hread]; rfl, hadv⟩

theorem fills_readPair : Fills Section.readPair (8 * 1) (halves 0) fun _ => id := by
  intro hw hlength sample sz
  obtain ⟨hw', hread, hadv⟩ :=
    perfReadBuffer_eq (show (8 : UInt64).toNat ≤ hw.rest.length from hlength) (by decide)
  exact ⟨hw', by rw [Section.readPair, hread]; rfl, hadv⟩

/-- A word that is stored in the sample. -/
theorem fills_word (store : UInt64 → Pebs → Pebs) :
    Fills (Section.readWord >>= fun val64 => Section.fill (store val64)) (8 * 1) (fun _ => ())
      fun bytes => store (word 0 bytes) :=
  fills_readWord.bind fun val64 => fills_fill (store val64)

/-- A word that is not used. -/
theorem fills_discard :
    Fills (discard Section.readWord) (8 * 1) (fun _ => ()) fun _ => id :=
  fills_readWord.bind fun _ => .pure ()

theorem fills_pair (store : ℕ × ℕ → Pebs → Pebs) :
    Fills (Section.readPair >>= fun pair => Section.fill (store pair)) (8 * 1) (fun _ => ())
      fun bytes => store (halves 0 bytes) :=
  fills_readPair.bind fun pair => fills_fill (store pair)

variable {attr : PerfEventAttr} {field : PerfSample} {part : Section Unit}
  {f : List UInt8 → Pebs → Pebs}

theorem fills_ifSampled (hfield : attr.samples field = true) (h : Fills part n (fun _ => ()) f) :
    Fills (Section.ifSampled attr field part) n (fun _ => ()) f := by
  rwa [Section.ifSampled, if_pos hfield]

theorem fills_ifSampled_of_false (part : Section Unit) (hfield : attr.samples field = false) :
    Fills (Section.ifSampled attr field part) 0 (fun _ => ()) fun _ => id := by
  rw [Section.ifSampled, if_neg (by simp [hfield])]
  exact .pure ()

end Fills

/-! ### The configured layout -/

section Configured

variable (numFdsGroup : ℕ)

theorem samples_setupGroup (field : PerfSample) :
    (setupGroup numFdsGroup).samples field = match field with
      | .callchain => false
      | .id => false
      | .raw => false
      | _ => true := by
  unfold setupGroup
  split_ifs <;> cases field <;> rfl

theorem reads_setupGroup (format : PerfFormat) :
    (setupGroup numFdsGroup).reads format = match format with
      | .totalTimeEnabled => true
      | .totalTimeRunning => true
      | .id => decide (1 < numFdsGroup)
      | .group => decide (1 < numFdsGroup) := by
  unfold setupGroup
  split_ifs with h
  · rw [decide_eq_true h]
    cases format <;> rfl
  · rw [decide_eq_false h]
    cases format <;> rfl

theorem fills_iip :
    Fills (Section.iip (setupGroup numFdsGroup)) (8 * 1) (fun _ => ()) fun bytes sample =>
      { sample with iip := word 0 bytes } := by
  rw [Section.iip, if_pos (samples_setupGroup numFdsGroup .ip)]
  exact fills_word fun val64 sample => { sample with iip := val64 }

theorem fills_identity :
    Fills (Section.identity (setupGroup numFdsGroup)) (8 * 7) (fun _ => ()) fun bytes sample =>
      identityOf sample bytes := by
  have hfield := samples_setupGroup numFdsGroup
  have h := (fills_iip numFdsGroup).bind fun _ =>
    (fills_ifSampled (hfield .tid)
      (fills_pair fun pid sample => { sample with tid := pid.2, pid := pid.1 })).bind fun _ =>
    (fills_ifSampled (hfield .time)
      (fills_word fun val64 sample => { sample with time := val64 })).bind fun _ =>
    (fills_ifSampled (hfield .addr)
      (fills_word fun val64 sample => { sample with sampleAddr := val64 })).bind fun _ =>
    (fills_ifSampled_of_false (discard Section.readWord) (hfield .id)).bind fun _ =>
    (fills_ifSampled (hfield .streamId) fills_discard).bind fun _ =>
    (fills_ifSampled (hfield .cpu)
      (fills_pair fun cpu sample => { sample with cpu := cpu.1 })).bind fun _ =>
    fills_ifSampled (hfield .period) fills_discard
  refine h.congr fun bytes sample => ?_
  simp only [List.drop_zero, word_drop, halves_drop]
  rfl

theorem fills_source :
    Fills (Section.source (setupGroup numFdsGroup)) (8 * 2) (fun _ => ()) fun bytes sample =>
      { sample with weight := word 0 bytes, dsrc := word 1 bytes } := by
  have hfield := samples_setupGroup numFdsGroup
  have h := (fills_ifSampled_of_false Section.callchain (hfield .callchain)).bind fun _ =>
    (fills_ifSampled_of_false Section.raw (hfield .raw)).bind fun _ =>
    (fills_ifSampled (hfield .weight)
      (fills_word fun val64 sample => { sample with weight := val64 })).bind fun _ =>
    fills_ifSampled (hfield .dataSrc)
      (fills_word fun val64 sample => { sample with dsrc := val64 })
  refine h.congr fun bytes sample => ?_
  simp only [List.drop_zero, word_drop]
  rfl

theorem fills_readTime {format : PerfFormat}
    (hformat : (setupGroup numFdsGroup).reads format = true) :
    Fills (Section.readTime (setupGroup numFdsGroup) format) (8 * 1) (word 0) fun _ => id := by
  rw [Section.readTime, if_pos hformat]
  exact fills_readWord

variable (R : Type) [RealT R]

theorem fills_singleValue (hsingle : ¬ 1 < numFdsGroup) :
    Fills (Section.singleValue R (setupGroup numFdsGroup)) (8 * 3) (fun _ => ())
      fun bytes sample => { sample with
        value := perfScale R (word 0 bytes) (word 1 bytes) (word 2 bytes)
        timeEnabled := word 1 bytes
        timeRunning := word 2 bytes } := by
  have hformat := reads_setupGroup numFdsGroup
  have hid : (setupGroup numFdsGroup).reads .id ≠ true := by simp [hformat, hsingle]
  have h := fills_readWord.bind fun val64 =>
    (fills_readTime numFdsGroup (hformat .totalTimeEnabled)).bind fun timeEnabled =>
    (fills_readTime numFdsGroup (hformat .totalTimeRunning)).bind fun timeRunning =>
    (Fills.pure ()).bind fun _ =>
    fills_fill fun sample => { sample with
      timeEnabled := timeEnabled
      timeRunning := timeRunning
      value := perfScale R val64 timeEnabled timeRunning }
  simp only [Section.singleValue, Section.readId, if_neg hid]
  refine h.congr fun bytes sample => ?_
  simp only [word_drop]
  rfl

theorem fills_counters (hgroup : 1 < numFdsGroup) (timeEnabled timeRunning : UInt64) :
    Fills (Section.counters R (setupGroup numFdsGroup) timeEnabled timeRunning 1) (8 * 2)
      (fun _ => ()) fun bytes sample => { sample with
        value := perfScale R (word 0 bytes) timeEnabled timeRunning } := by
  have hid : (setupGroup numFdsGroup).reads .id = true := by
    rw [reads_setupGroup]
    exact decide_eq_true hgroup
  have h := fills_readWord.bind fun value =>
    fills_discard.bind fun _ =>
    (fills_fill fun sample => { sample with
      value := perfScale R value timeEnabled timeRunning }).bind fun _ =>
    Fills.pure ()
  simp only [Section.counters, Section.readId, if_pos hid]
  exact h.congr fun bytes sample => rfl

theorem fills_groupCounters (hgroup : 1 < numFdsGroup) :
    Fills (Section.groupCounters R (setupGroup numFdsGroup) 1) (8 * 4) (fun _ => ())
      fun bytes sample => { sample with
        value := perfScale R (word 2 bytes) (word 0 bytes) (word 1 bytes)
        timeEnabled := word 0 bytes
        timeRunning := word 1 bytes } := by
  have hformat := reads_setupGroup numFdsGroup
  have h := (fills_readTime numFdsGroup (hformat .totalTimeEnabled)).bind fun timeEnabled =>
    (fills_readTime numFdsGroup (hformat .totalTimeRunning)).bind fun timeRunning =>
    (fills_fill fun sample => { sample with
      timeEnabled := timeEnabled
      timeRunning := timeRunning }).bind fun _ =>
    fills_counters numFdsGroup R hgroup timeEnabled timeRunning
  refine h.congr fun bytes sample => ?_
  simp only [List.drop_zero, word_drop]
  rfl

/-- The values of a group of one counter. -/
theorem fillsAt_groupValues (hgroup : 1 < numFdsGroup) {hw : PerfBuffer}
    (hlength : 8 * 5 ≤ hw.rest.length) (hnr : word 0 hw.rest = 1) :
    FillsAt hw (Section.groupValues R (setupGroup numFdsGroup)) (8 * 5) () fun sample =>
      { sample with
        value := perfScale R (word 3 hw.rest) (word 1 hw.rest) (word 2 hw.rest)
        timeEnabled := word 1 hw.rest
        timeRunning := word 2 hw.rest } := by
  have hcounters : ∀ hw', Advances hw (8 * 1) hw' →
      FillsAt hw' (Section.groupCounters R (setupGroup numFdsGroup) (word 0 hw.rest)) (8 * 4) ()
        fun sample => { sample with
          value := perfScale R (word 3 hw.rest) (word 1 hw.rest) (word 2 hw.rest)
          timeEnabled := word 1 hw.rest
          timeRunning := word 2 hw.rest } := by
    intro hw' hadv
    have hlength' : 8 * 4 ≤ hw'.rest.length := by
      rw [hadv.rest_eq, List.length_drop]
      omega
    have h := fills_groupCounters numFdsGroup R hgroup hw' hlength'
    rw [hadv.rest_eq] at h
    simp only [word_drop] at h
    rwa [hnr]
  have h := FillsAt.bind (fills_readWord hw (by omega)) hcounters
  exact h

/-- The values in either format. -/
theorem fillsAt_values {hw : PerfBuffer}
    (hlength : sampleRecordSize (decide (1 < numFdsGroup)) - 80 ≤ hw.rest.length)
    (hnr : 1 < numFdsGroup → word 0 hw.rest = 1) :
    FillsAt hw (Section.values R (setupGroup numFdsGroup))
      (sampleRecordSize (decide (1 < numFdsGroup)) - 80) () fun sample => { sample with
        value := perfScale R (if 1 < numFdsGroup then word 3 hw.rest else word 0 hw.rest)
          (word 1 hw.rest) (word 2 hw.rest)
        timeEnabled := word 1 hw.rest
        timeRunning := word 2 hw.rest } := by
  have hgroup : (setupGroup numFdsGroup).reads .group = decide (1 < numFdsGroup) :=
    reads_setupGroup numFdsGroup .group
  by_cases h : 1 < numFdsGroup
  · rw [decide_eq_true h] at hgroup hlength ⊢
    rw [Section.values, if_pos hgroup]
    simp only [if_pos h]
    exact fillsAt_groupValues numFdsGroup R h hlength (hnr h)
  · rw [decide_eq_false h] at hgroup hlength ⊢
    rw [Section.values, hgroup]
    simp only [if_neg h]
    exact fills_singleValue numFdsGroup R h hw hlength

/-- The values and the fields after them. -/
theorem fillsAt_valuesSource {hw : PerfBuffer}
    (hlength : sampleRecordSize (decide (1 < numFdsGroup)) - 80 + 8 * 2 ≤ hw.rest.length)
    (hnr : 1 < numFdsGroup → word 0 hw.rest = 1) :
    FillsAt hw (Section.ifSampled (setupGroup numFdsGroup) .read
      (Section.values R (setupGroup numFdsGroup)) >>= fun _ =>
        Section.source (setupGroup numFdsGroup))
      (sampleRecordSize (decide (1 < numFdsGroup)) - 80 + 8 * 2) () fun sample => { sample with
        value := perfScale R (if 1 < numFdsGroup then word 3 hw.rest else word 0 hw.rest)
          (word 1 hw.rest) (word 2 hw.rest)
        timeEnabled := word 1 hw.rest
        timeRunning := word 2 hw.rest
        weight := if 1 < numFdsGroup then word 5 hw.rest else word 3 hw.rest
        dsrc := if 1 < numFdsGroup then word 6 hw.rest else word 4 hw.rest } := by
  have hsource : ∀ hw', Advances hw (sampleRecordSize (decide (1 < numFdsGroup)) - 80) hw' →
      FillsAt hw' (Section.source (setupGroup numFdsGroup)) (8 * 2) () fun sample => { sample with
        weight := if 1 < numFdsGroup then word 5 hw.rest else word 3 hw.rest
        dsrc := if 1 < numFdsGroup then word 6 hw.rest else word 4 hw.rest } := by
    intro hw' hadv
    have hlength' : 8 * 2 ≤ hw'.rest.length := by
      rw [hadv.rest_eq, List.length_drop]
      omega
    have h := fills_source numFdsGroup hw' hlength'
    rw [hadv.rest_eq] at h
    by_cases hgroup : 1 < numFdsGroup
    · simp only [if_pos hgroup]
      rw [decide_eq_true hgroup] at h
      change FillsAt hw' _ _ _ fun sample => { sample with
        weight := word 0 (hw.rest.drop (8 * 5)), dsrc := word 1 (hw.rest.drop (8 * 5)) } at h
      simpa only [word_drop] using h
    · simp only [if_neg hgroup]
      rw [decide_eq_false hgroup] at h
      change FillsAt hw' _ _ _ fun sample => { sample with
        weight := word 0 (hw.rest.drop (8 * 3)), dsrc := word 1 (hw.rest.drop (8 * 3)) } at h
      simpa only [word_drop] using h
  rw [Section.ifSampled, if_pos (samples_setupGroup numFdsGroup .read)]
  exact (fillsAt_values numFdsGroup R (Nat.le_of_add_right_le hlength) hnr).seq hsource

/-- All fields of a record in the configured layout. -/
theorem fillsAt_all {hw : PerfBuffer}
    (hlength : sampleRecordSize (decide (1 < numFdsGroup)) - 8 ≤ hw.rest.length)
    (hnr : 1 < numFdsGroup → word 7 hw.rest = 1) :
    FillsAt hw (Section.all R (setupGroup numFdsGroup))
      (sampleRecordSize (decide (1 < numFdsGroup)) - 8) () fun sample =>
        sampleOf R sample.sampleType (decide (1 < numFdsGroup)) hw.rest := by
  have hsize : sampleRecordSize (decide (1 < numFdsGroup)) - 8 =
      8 * 7 + (sampleRecordSize (decide (1 < numFdsGroup)) - 80 + 8 * 2) := by
    cases decide (1 < numFdsGroup) <;> rfl
  have hvalues : ∀ hw', Advances hw (8 * 7) hw' → FillsAt hw'
      (Section.ifSampled (setupGroup numFdsGroup) .read
        (Section.values R (setupGroup numFdsGroup)) >>= fun _ =>
          Section.source (setupGroup numFdsGroup))
      (sampleRecordSize (decide (1 < numFdsGroup)) - 80 + 8 * 2) () fun sample => { sample with
        value := perfScale R (if 1 < numFdsGroup then word 10 hw.rest else word 7 hw.rest)
          (word 8 hw.rest) (word 9 hw.rest)
        timeEnabled := word 8 hw.rest
        timeRunning := word 9 hw.rest
        weight := if 1 < numFdsGroup then word 12 hw.rest else word 10 hw.rest
        dsrc := if 1 < numFdsGroup then word 13 hw.rest else word 11 hw.rest } := by
    intro hw' hadv
    have hlength' : sampleRecordSize (decide (1 < numFdsGroup)) - 80 + 8 * 2 ≤
        hw'.rest.length := by
      rw [hadv.rest_eq, List.length_drop]
      omega
    have hnr' : 1 < numFdsGroup → word 0 hw'.rest = 1 := by
      rw [hadv.rest_eq, word_drop]
      exact hnr
    have h := fillsAt_valuesSource numFdsGroup R hlength' hnr'
    rw [hadv.rest_eq] at h
    simpa only [word_drop] using h
  have h := (fills_identity numFdsGroup hw (by omega)).seq hvalues
  rw [hsize]
  intro sample sz
  have hsample : sampleOf R sample.sampleType (decide (1 < numFdsGroup)) hw.rest =
      { identityOf sample hw.rest with
        value := perfScale R (if 1 < numFdsGroup then word 10 hw.rest else word 7 hw.rest)
          (word 8 hw.rest) (word 9 hw.rest)
        timeEnabled := word 8 hw.rest
        timeRunning := word 9 hw.rest
        weight := if 1 < numFdsGroup then word 12 hw.rest else word 10 hw.rest
        dsrc := if 1 < numFdsGroup then word 13 hw.rest else word 11 hw.rest } := by
    simp only [sampleOf, decide_eq_true_eq]
    rfl
  beta_reduce
  rw [hsample]
  exact h sample sz

/-- **Agreement.** -/
theorem decoders_agree {ehdr : PerfEventHeader} {hw : PerfBuffer} (nrLeft : UInt64) (sample : Pebs)
    (hsize : ehdr.size.toNat = sampleRecordSize (decide (1 < numFdsGroup)))
    (hcomplete : ehdr.size.toNat - 8 ≤ hw.rest.length)
    (hnr : 1 < numFdsGroup → word 7 hw.rest = 1) :
    ∃ sample' hw₁ hw₂,
      transferDataFromBufferToStructure R ((setupGroup numFdsGroup).reads .group) nrLeft ehdr
        sample hw = ((0, sample'), hw₁) ∧
      transferDataFromBufferToStructureAllifs R (setupGroup numFdsGroup) ehdr sample hw =
        ((0, sample'), hw₂) ∧
      hw₁.dataTail.toNat = hw.dataTail.toNat + (ehdr.size.toNat - 8) ∧
      hw₂.dataTail = hw₁.dataTail := by
  have hgroup : (setupGroup numFdsGroup).reads .group = decide (1 < numFdsGroup) :=
    reads_setupGroup numFdsGroup .group
  rw [hsize] at hcomplete ⊢
  obtain ⟨hw₁, hfast, hadv₁⟩ := parsesAt_transfer_of_size R nrLeft sample hsize hcomplete
    fun h => hnr (of_decide_eq_true h)
  obtain ⟨hw₂, hchecked, hadv₂⟩ :=
    fillsAt_all numFdsGroup R hcomplete hnr sample (ehdr.size.toUInt64 - 8)
  have hsz : ehdr.size.toUInt64 - 8 -
      UInt64.ofNat (sampleRecordSize (decide (1 < numFdsGroup)) - 8) = 0 := by
    rw [← hsize]
    have hle : 8 ≤ ehdr.size.toNat := by
      rw [hsize]
      cases decide (1 < numFdsGroup) <;> decide
    have hofNat : UInt64.ofNat (ehdr.size.toNat - 8) = ehdr.size.toUInt64 - 8 := by
      rw [UInt64.ofNat_sub hle, ← UInt16.toNat_toUInt64, UInt64.ofNat_toNat]
      rfl
    rw [hofNat, UInt64.sub_self]
  refine ⟨_, hw₁, hw₂, by rw [hgroup]; exact hfast, ?_, hadv₁.dataTail_eq, ?_⟩
  · rw [transferDataFromBufferToStructureAllifs, hchecked, hsz]
    rfl
  · rw [← UInt64.toNat_inj, hadv₁.dataTail_eq, hadv₂.dataTail_eq]

end Configured

/-- A record across the end of the buffer, for a group of one event. -/
def acrossTheEnd : PerfBuffer where
  data i := UInt8.ofNat i
  logSize := 12
  dataHead := 4186
  dataTail := 4090
  page_le := le_rfl
  logSize_lt := by decide
  tail_le_head := by decide

theorem decoders_agree_acrossTheEnd :
    ∃ sample hw₁ hw₂,
      transferDataFromBufferToStructure ℚ ((setupGroup 1).reads .group) 0 ⟨9, 0, 104⟩
        (.new .memSample) acrossTheEnd = ((0, sample), hw₁) ∧
      transferDataFromBufferToStructureAllifs ℚ (setupGroup 1) ⟨9, 0, 104⟩ (.new .memSample)
        acrossTheEnd = ((0, sample), hw₂) ∧
      hw₁.dataTail.toNat = 4186 ∧ hw₂.dataTail = hw₁.dataTail := by
  have hlength : acrossTheEnd.rest.length = 96 := length_rest
  exact decoders_agree 1 ℚ 0 (.new .memSample) rfl hlength.ge fun h => absurd h (lt_irrefl 1)

end Thanos
