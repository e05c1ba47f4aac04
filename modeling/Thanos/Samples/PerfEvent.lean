import Thanos.Library.DoWhile
import Thanos.Samples.PerfBuffer

/-!
# Reading samples

`process_sample_buf` reads a record header, does what its type asks for, and goes on with the
next header until less than a header is left. Whatever it does with a record, it has to leave
the buffer at the end of the record, and a sample is a record of which every field is read.

* **Samples** (`parses_transfer_single`, `parses_transfer_group`): given a sample record in the
  configured layout, the decoder reads the fields of its payload and nothing else.
-/

namespace Thanos

open PerfBuffer

/-! ### Records -/

/-- `perf_event_header`. -/
structure PerfEventHeader where
  type : ℕ
  misc : ℕ
  size : UInt16

/-- The header at the front of some bytes. -/
def PerfEventHeader.ofBytes (bytes : List UInt8) : PerfEventHeader where
  type := leNat (bytes.take 4)
  misc := leNat ((bytes.drop 4).take 2)
  size := UInt16.ofNat (leNat ((bytes.drop 6).take 2))

/-- The types of records that are told apart. -/
inductive RecordKind
  | lost
  | exit
  | throttle
  | unthrottle
  | sample
  | unknown
  deriving DecidableEq

/-- The cases of the switch over the type, with the values of `perf_event_type`. -/
def PerfEventHeader.kind (ehdr : PerfEventHeader) : RecordKind :=
  if ehdr.type = 2 then .lost
  else if ehdr.type = 4 then .exit
  else if ehdr.type = 5 then .throttle
  else if ehdr.type = 6 then .unthrottle
  else if ehdr.type = 9 then .sample
  else .unknown

/-! ### Decoding a sample -/

section Transfer

variable (R : Type) [RealT R]

/-- `perf_scale`. -/
def perfScale (rawValue timeEnabled timeRunning : UInt64) : UInt64 :=
  if timeRunning = 0 then 0
  else
    let real (n : UInt64) : R := RealT.ofRat n.toNat
    UInt64.ofNat (RealT.trunc (real rawValue * real timeEnabled / real timeRunning)).toNat

/-- The fields before the values: IIP, TID, TIME, ADDR, STREAM_ID, CPU and PERIOD. -/
def transferIdentity (sample : Pebs) : StateM PerfBuffer Pebs := do
  let iip ← perfReadBuffer64 sample.iip
  let pid ← perfReadBufferPair (0, 0)
  let time ← perfReadBuffer64 sample.time
  let sampleAddr ← perfReadBuffer64 sample.sampleAddr
  let streamId ← perfReadBuffer64 0
  let cpu ← perfReadBufferPair (0, 0)
  let _period ← perfReadBuffer64 streamId
  pure { sample with
    iip := iip, pid := pid.1, tid := pid.2, time := time, sampleAddr := sampleAddr, cpu := cpu.1 }

/-- The fields after the values, WEIGHT and DSRC. What is left of the record then is skipped. -/
def transferSource (sz : UInt64) (sample : Pebs) : StateM PerfBuffer (ℤ × Pebs) := do
  let weight ← perfReadBuffer64 sample.weight
  let dsrc ← perfReadBuffer64 sample.dsrc
  let sample := { sample with weight := weight, dsrc := dsrc }
  let sz := sz - 16
  if sz ≠ 0 then do
    modify fun hw => hw.perfSkipBuffer sz
    pure (1, sample)
  else pure (0, sample)

/-- The values without `PERF_FORMAT_GROUP`. -/
def transferSingle (sz : UInt64) (sample : Pebs) : StateM PerfBuffer (ℤ × Pebs) := do
  let value ← perfReadBuffer64 sample.value
  let timeEnabled ← perfReadBuffer64 sample.timeEnabled
  let timeRunning ← perfReadBuffer64 sample.timeRunning
  transferSource (sz - 24) { sample with
    value := perfScale R value timeEnabled timeRunning
    timeEnabled := timeEnabled
    timeRunning := timeRunning }

/-- The values with `PERF_FORMAT_GROUP` after their number, of which only the first is read. -/
def transferCounter (sz nr : UInt64) (sample : Pebs) : StateM PerfBuffer (ℤ × Pebs) := do
  let timeEnabled ← perfReadBuffer64 sample.timeEnabled
  let timeRunning ← perfReadBuffer64 sample.timeRunning
  let value ← perfReadBuffer64 0
  let _id ← perfReadBuffer64 (-1)
  let sample := { sample with timeEnabled := timeEnabled, timeRunning := timeRunning }
  if 3 < nr then pure (-1, sample)
  else
    transferSource (sz - 32) { sample with value := perfScale R value timeEnabled timeRunning }

/-- The values with `PERF_FORMAT_GROUP`. -/
def transferGroup (nrLeft sz : UInt64) (sample : Pebs) : StateM PerfBuffer (ℤ × Pebs) := do
  let nr ← perfReadBuffer64 nrLeft
  transferCounter R (sz - 8) nr sample

/-- `transfer_data_from_buffer_to_structure`, which returns 0 if it is successful. -/
def transferDataFromBufferToStructure (formatGroup : Bool) (nrLeft : UInt64)
    (ehdr : PerfEventHeader) (sample : Pebs) : StateM PerfBuffer (ℤ × Pebs) := do
  let sz := ehdr.size.toUInt64 - 8
  let sample ← transferIdentity sample
  if formatGroup then transferGroup R nrLeft (sz - 56) sample
  else transferSingle R (sz - 56) sample

end Transfer

/-! ### The loop -/

/-- The buffer of a group on a CPU, with the variables that `process_sample_buf` updates. -/
structure SampleReader where
  hw : PerfBuffer
  /-- `samples_last_values`. -/
  lastValue : UInt64
  /-- `samples_last_times`. -/
  lastTime : UInt64
  samplesList : List Pebs
  collectedSamples : ℕ
  processedSamples : ℕ
  lostSamples : ℕ
  unknownSamples : ℕ
  discardedSamples : ℕ
  numFailures : ℕ

/-- What a call of `process_sample_buf` does not change. -/
structure SampleGroup (R : Type) where
  sampleType : SampleType
  /-- `PERF_FORMAT_GROUP` is set in the read format. -/
  formatGroup : Bool
  acceptPIDFilter : Pid → Bool
  /-- The size of the memory mapped region. -/
  mapSize : UInt64
  /-- What is in `nr`, which is not initialised, if it cannot be read. -/
  nrLeft : SampleReader → UInt64

section Loop

variable {R : Type} [RealT R] (group : SampleGroup R)

/-- What becomes of a sample: the increments over the last one go to the list. -/
def SampleReader.addSample (st : SampleReader) (sample : Pebs) : SampleReader :=
  if group.acceptPIDFilter sample.tid then
    let st :=
      if st.lastTime ≠ 0 then
        if st.lastValue < sample.value then
          { st with
            lastValue := sample.value
            lastTime := sample.timeRunning
            samplesList := st.samplesList ++ [{ sample with
              value := sample.value - st.lastValue
              timeRunning := sample.timeRunning - st.lastTime }] }
        else { st with lastValue := 0, lastTime := 0 }
      else { st with lastValue := sample.value, lastTime := sample.timeRunning }
    { st with processedSamples := st.processedSamples + 1 }
  else { st with discardedSamples := st.discardedSamples + 1 }

/-- How much is skipped of a record that is not read. -/
def toSkip (ehdr : PerfEventHeader) : UInt64 :=
  if ehdr.size = 0 then group.mapSize else ehdr.size.toUInt64 - 8

/-- The switch over the type of a record. -/
def SampleReader.handle (st : SampleReader) (ehdr : PerfEventHeader) : SampleReader :=
  match ehdr.kind with
  | .sample =>
    let ((ret, sample), hw) :=
      transferDataFromBufferToStructure R group.formatGroup (group.nrLeft st) ehdr
        (.new group.sampleType) st.hw
    let st := { st with hw := hw, collectedSamples := st.collectedSamples + 1 }
    if ret ≠ 0 then
      { st with
        hw := hw.perfSkipBuffer (toSkip group ehdr)
        numFailures := st.numFailures + 1
        lastValue := 0
        lastTime := 0 }
    else st.addSample group sample
  | .exit => st
  | .lost =>
    -- `display_lost`, which reads an identifier and a number
    match st.hw.perfReadBuffer 16 with
    | none => st
    | some (bytes, hw) =>
      { st with hw := hw, lostSamples := st.lostSamples + leNat (bytes.drop 8) }
  | .throttle => st
  | .unthrottle => st
  | .unknown =>
    { st with
      hw := st.hw.perfSkipBuffer (toSkip group ehdr)
      unknownSamples := st.unknownSamples + 1 }

/-- One iteration: does the loop go on, and the state after it. -/
def readRecord (st : SampleReader) : Bool × SampleReader :=
  match st.hw.perfReadBuffer 8 with
  | none => (false, st)
  | some (bytes, hw) => (true, { st with hw := hw }.handle group (.ofBytes bytes))

/-- `process_sample_buf`, for a number of iterations. -/
def processSampleBuf (fuel : ℕ) (st : SampleReader) : Option SampleReader :=
  doWhile (readRecord group) fuel st

/-- The sample that an iteration decodes, if it is successful with one. -/
def decodedAt (st : SampleReader) : Option Pebs :=
  match st.hw.perfReadBuffer 8 with
  | none => none
  | some (bytes, hw) =>
    let ehdr := PerfEventHeader.ofBytes bytes
    if ehdr.kind = .sample then
      let (ret, sample) := (transferDataFromBufferToStructure R group.formatGroup
        (group.nrLeft { st with hw := hw }) ehdr (.new group.sampleType) hw).1
      if ret = 0 then some sample else none
    else none

end Loop

/-! ### What the decoder reads -/

/-- The size of a sample record with one counter. -/
def sampleRecordSize (formatGroup : Bool) : ℕ :=
  if formatGroup then 120 else 104

section Decoder

variable (R : Type) [RealT R]

/-- The fields before the values. -/
def identityOf (sample : Pebs) (bytes : List UInt8) : Pebs :=
  { sample with
    iip := word 0 bytes
    pid := (halves 1 bytes).1
    tid := (halves 1 bytes).2
    time := word 2 bytes
    sampleAddr := word 3 bytes
    cpu := (halves 5 bytes).1 }

/-- The sample in the payload of a sample record. -/
def sampleOf (sampleType : SampleType) (formatGroup : Bool) (bytes : List UInt8) : Pebs :=
  let value := if formatGroup then word 10 bytes else word 7 bytes
  { identityOf (.new sampleType) bytes with
    value := perfScale R value (word 8 bytes) (word 9 bytes)
    timeEnabled := word 8 bytes
    timeRunning := word 9 bytes
    weight := if formatGroup then word 12 bytes else word 10 bytes
    dsrc := if formatGroup then word 13 bytes else word 11 bytes }

theorem parses_transferIdentity (sample : Pebs) :
    Parses (transferIdentity sample) (8 * 7) (identityOf sample) := by
  have h := (parses_perfReadBuffer64 sample.iip).bind fun iip =>
    (parses_perfReadBufferPair (0, 0)).bind fun pid =>
    (parses_perfReadBuffer64 sample.time).bind fun time =>
    (parses_perfReadBuffer64 sample.sampleAddr).bind fun sampleAddr =>
    (parses_perfReadBuffer64 0).bind fun streamId =>
    (parses_perfReadBufferPair (0, 0)).bind fun cpu =>
    (parses_perfReadBuffer64 streamId).bind fun _ =>
    Parses.pure { sample with
      iip := iip, pid := pid.1, tid := pid.2, time := time, sampleAddr := sampleAddr
      cpu := cpu.1 }
  refine h.congr fun bytes => ?_
  simp only [word_drop, halves_drop]
  rfl

theorem parses_transferSource (sample : Pebs) :
    Parses (transferSource 16 sample) (8 * 2) fun bytes =>
      (0, { sample with weight := word 0 bytes, dsrc := word 1 bytes }) := by
  have h := (parses_perfReadBuffer64 sample.weight).bind fun weight =>
    (parses_perfReadBuffer64 sample.dsrc).bind fun dsrc =>
    Parses.pure ((0, { sample with weight := weight, dsrc := dsrc }) : ℤ × Pebs)
  refine h.congr fun bytes => ?_
  simp only [word_drop]

theorem parses_transferSingle (sample : Pebs) :
    Parses (transferSingle R 40 sample) (8 * 5) fun bytes =>
      (0, { sample with
        value := perfScale R (word 0 bytes) (word 1 bytes) (word 2 bytes)
        timeEnabled := word 1 bytes
        timeRunning := word 2 bytes
        weight := word 3 bytes
        dsrc := word 4 bytes }) := by
  have h := (parses_perfReadBuffer64 sample.value).bind fun value =>
    (parses_perfReadBuffer64 sample.timeEnabled).bind fun timeEnabled =>
    (parses_perfReadBuffer64 sample.timeRunning).bind fun timeRunning =>
    parses_transferSource { sample with
      value := perfScale R value timeEnabled timeRunning
      timeEnabled := timeEnabled
      timeRunning := timeRunning }
  refine h.congr fun bytes => ?_
  simp only [word_drop]

theorem parses_transferCounter {nr : UInt64} (hnr : ¬ 3 < nr) (sample : Pebs) :
    Parses (transferCounter R 48 nr sample) (8 * 6) fun bytes =>
      (0, { sample with
        value := perfScale R (word 2 bytes) (word 0 bytes) (word 1 bytes)
        timeEnabled := word 0 bytes
        timeRunning := word 1 bytes
        weight := word 4 bytes
        dsrc := word 5 bytes }) := by
  have h := (parses_perfReadBuffer64 sample.timeEnabled).bind fun timeEnabled =>
    (parses_perfReadBuffer64 sample.timeRunning).bind fun timeRunning =>
    (parses_perfReadBuffer64 0).bind fun value =>
    (parses_perfReadBuffer64 (-1)).bind fun _ =>
    parses_transferSource { sample with
      timeEnabled := timeEnabled
      timeRunning := timeRunning
      value := perfScale R value timeEnabled timeRunning }
  unfold transferCounter
  simp only [if_neg hnr]
  refine h.congr fun bytes => ?_
  simp only [word_drop]

/-- **Samples** in the single-event format. -/
theorem parses_transfer_single (nrLeft : UInt64) (sample : Pebs) {ehdr : PerfEventHeader}
    (hsize : ehdr.size = 104) :
    Parses (transferDataFromBufferToStructure R false nrLeft ehdr sample) (8 * 12)
      fun bytes => (0, sampleOf R sample.sampleType false bytes) := by
  have h := (parses_transferIdentity sample).bind fun sample =>
    parses_transferSingle R sample
  have hprogram : transferDataFromBufferToStructure R false nrLeft ehdr sample =
      transferIdentity sample >>= transferSingle R 40 := by
    rw [transferDataFromBufferToStructure, hsize]
    rfl
  rw [hprogram]
  refine h.congr fun bytes => ?_
  simp only [word_drop]
  rfl

/-- **Samples** in the group format, with one counter. -/
theorem parses_transfer_group (nrLeft : UInt64) (sample : Pebs) {ehdr : PerfEventHeader}
    (hsize : ehdr.size = 120) {hw : PerfBuffer} (hlength : 8 * 14 ≤ hw.rest.length)
    (hnr : ¬ 3 < word 7 hw.rest) :
    ParsesAt hw (transferDataFromBufferToStructure R true nrLeft ehdr sample) (8 * 14)
      (0, sampleOf R sample.sampleType true hw.rest) := by
  have hprogram : transferDataFromBufferToStructure R true nrLeft ehdr sample =
      transferIdentity sample >>= fun sample =>
        perfReadBuffer64 nrLeft >>= fun nr => transferCounter R 48 nr sample := by
    rw [transferDataFromBufferToStructure, hsize]
    rfl
  rw [hprogram]
  change ParsesAt hw _ (8 * 7 + (8 * 1 + 8 * 6)) _
  refine (parses_transferIdentity sample hw (by omega)).bind fun hw' hadv => ?_
  have hlength' : 8 * 7 ≤ hw'.rest.length := by
    rw [hadv.rest_eq, List.length_drop]
    omega
  refine (parses_perfReadBuffer64 nrLeft hw' (by omega)).bind fun hw'' hadv' => ?_
  have hlength'' : 8 * 6 ≤ hw''.rest.length := by
    rw [hadv'.rest_eq, List.length_drop]
    omega
  have hnr' : ¬ 3 < word 0 hw'.rest := by rwa [hadv.rest_eq, word_drop]
  have hcounter :=
    parses_transferCounter R hnr' (identityOf sample hw.rest) hw'' hlength''
  have hrest : hw''.rest = hw.rest.drop (8 * 8) := by
    rw [hadv'.rest_eq, hadv.rest_eq, List.drop_drop]
  simp only [hrest, word_drop] at hcounter
  exact hcounter

/-- **Samples** in either format. -/
theorem parsesAt_transfer_of_size (nrLeft : UInt64) (sample : Pebs) {formatGroup : Bool}
    {ehdr : PerfEventHeader} (hsize : ehdr.size.toNat = sampleRecordSize formatGroup)
    {hw : PerfBuffer} (hlength : sampleRecordSize formatGroup - 8 ≤ hw.rest.length)
    (hnr : formatGroup = true → word 7 hw.rest = 1) :
    ParsesAt hw (transferDataFromBufferToStructure R formatGroup nrLeft ehdr sample)
      (sampleRecordSize formatGroup - 8) (0, sampleOf R sample.sampleType formatGroup hw.rest) := by
  cases formatGroup with
  | false =>
    have hsize' : ehdr.size = 104 := UInt16.toNat_inj.mp hsize
    exact parses_transfer_single R nrLeft sample hsize' hw hlength
  | true =>
    have hsize' : ehdr.size = 120 := UInt16.toNat_inj.mp hsize
    exact parses_transfer_group R nrLeft sample hsize' hlength (by rw [hnr rfl]; decide)

end Decoder

end Thanos
