import Thanos.Samples.PerfEvent

/-!
# Framing of the sample buffer

`process_sample_buf` reads a record header, does what its type asks for, and goes on with the
next header. Whatever it does with a record, it has to leave the buffer at its end.

* **One record** (`readRecord_consumed`, `readRecord_unconsumed`): an iteration takes a whole
  record off the buffer, or its header only.
* **Framing** (`framed_iff`): the headers are read at the starts of the records exactly when no
  record is of a type whose payload is left in the buffer.
-/

namespace Thanos

open PerfBuffer

/-! ### Records -/

/-- The payload of a record is one that the kernel writes. -/
def WellFormedPayload (formatGroup : Bool) (bytes : List UInt8) : RecordKind → Prop
  | .sample => bytes.length = sampleRecordSize formatGroup ∧
      (formatGroup = true → word 7 (bytes.drop 8) = 1)
  | .lost => bytes.length = 24
  | .exit => bytes.length = 32
  | .throttle => bytes.length = 32
  | .unthrottle => bytes.length = 32
  | .unknown => True

/-- A complete record with its true size in the header. -/
structure Record (formatGroup : Bool) where
  bytes : List UInt8
  header_le : 8 ≤ bytes.length
  size_eq : (PerfEventHeader.ofBytes bytes).size.toNat = bytes.length
  payload : WellFormedPayload formatGroup bytes (PerfEventHeader.ofBytes bytes).kind

namespace Record

variable {formatGroup : Bool} (rec : Record formatGroup)

/-- The type of the record. -/
def kind : RecordKind :=
  (PerfEventHeader.ofBytes rec.bytes).kind

/-- `process_sample_buf` takes the payload of the record off the buffer. -/
def Consumed : Prop :=
  rec.kind ≠ .exit ∧ rec.kind ≠ .throttle ∧ rec.kind ≠ .unthrottle

variable {rec} in
theorem not_consumed_iff :
    ¬ rec.Consumed ↔ rec.kind = .exit ∨ rec.kind = .throttle ∨ rec.kind = .unthrottle := by
  rw [Consumed]
  tauto

/-- The sample in a sample record. -/
def sample (R : Type) [RealT R] (sampleType : SampleType) : Option Pebs :=
  if rec.kind = .sample then some (sampleOf R sampleType formatGroup (rec.bytes.drop 8)) else none

/-- The positions at which the records start. -/
def starts : ℕ → List (Record formatGroup) → List ℕ
  | _, [] => []
  | pos, rec :: records => pos :: starts (pos + rec.bytes.length) records

end Record

section Framed

variable {R : Type} [RealT R] (group : SampleGroup R)

/-- `process_sample_buf` consumes exactly whole records: its iterations read the headers at the
starts of the records and decode the samples of the sample records, and nothing is left. -/
def Framed (st : SampleReader) (records : List (Record group.formatGroup)) : Prop :=
  HasTrace (readRecord group) st fun trace r =>
    trace.map (fun st' => st'.hw.dataTail.toNat) = Record.starts st.hw.dataTail.toNat records ∧
      trace.filterMap (decodedAt group) =
        records.filterMap (fun rec => rec.sample R group.sampleType) ∧
      r.hw.dataTail = st.hw.dataHead

variable {group} in
/-- Then `process_sample_buf` returns with an empty buffer. -/
theorem Framed.exists_result {st : SampleReader} {records : List (Record group.formatGroup)}
    (h : Framed group st records) :
    ∃ fuel r, processSampleBuf group fuel st = some r ∧ r.hw.dataTail = st.hw.dataHead := by
  obtain ⟨fuel, trace, r, hrun, -, -, hend⟩ := h
  refine ⟨fuel, r, ?_, hend⟩
  rw [processSampleBuf, ← doWhileTrace_snd, hrun, Option.map_some]

end Framed

/-! ### Headers and words of a longer list -/

theorem PerfEventHeader.ofBytes_take (bytes : List UInt8) :
    PerfEventHeader.ofBytes (bytes.take 8) = .ofBytes bytes := by
  simp [PerfEventHeader.ofBytes, List.take_take, List.drop_take]

theorem word_append {i : ℕ} {bytes more : List UInt8} (h : 8 * i + 8 ≤ bytes.length) :
    word i (bytes ++ more) = word i bytes := by
  rw [word, word, List.drop_append_of_le_length (by omega),
    List.take_append_of_le_length (by rw [List.length_drop]; omega)]

theorem halves_append {i : ℕ} {bytes more : List UInt8} (h : 8 * i + 8 ≤ bytes.length) :
    halves i (bytes ++ more) = halves i bytes := by
  rw [halves, halves, List.drop_append_of_le_length (by omega),
    List.take_append_of_le_length (by rw [List.length_drop]; omega)]

theorem sampleOf_append (R : Type) [RealT R] (sampleType : SampleType) (formatGroup : Bool)
    {bytes more : List UInt8} (h : sampleRecordSize formatGroup - 8 ≤ bytes.length) :
    sampleOf R sampleType formatGroup (bytes ++ more) =
      sampleOf R sampleType formatGroup bytes := by
  have hshort : 96 ≤ bytes.length := by
    refine le_trans ?_ h
    cases formatGroup <;> decide
  have hword : ∀ i, i < 12 → word i (bytes ++ more) = word i bytes :=
    fun i hi => word_append (by omega)
  have hhalves : ∀ i, i < 12 → halves i (bytes ++ more) = halves i bytes :=
    fun i hi => halves_append (by omega)
  cases formatGroup with
  | false => simp [sampleOf, identityOf, hword, hhalves]
  | true =>
    have hlong : 112 ≤ bytes.length := h
    have hword' : ∀ i, i < 14 → word i (bytes ++ more) = word i bytes :=
      fun i hi => word_append (by omega)
    simp [sampleOf, identityOf, hword', hhalves]

/-! ### One record -/

section OneRecord

variable {R : Type} [RealT R] {group : SampleGroup R} {st : SampleReader}
  {rec : Record group.formatGroup} {more : List UInt8}

omit [RealT R] in
theorem addSample_hw (sample : Pebs) : (st.addSample group sample).hw = st.hw := by
  unfold SampleReader.addSample
  split_ifs <;> rfl

omit [RealT R] in
/-- The header of a record is read. -/
theorem exists_header (hrest : st.hw.rest = rec.bytes ++ more) :
    ∃ hw, st.hw.perfReadBuffer 8 = some (rec.bytes.take 8, hw) ∧ Advances st.hw 8 hw ∧
      hw.rest = rec.bytes.drop 8 ++ more := by
  have hlength : (8 : UInt64).toNat ≤ st.hw.rest.length := by
    have hheader := rec.header_le
    rw [hrest, List.length_append]
    change 8 ≤ _
    omega
  obtain ⟨hw, hread, hadv⟩ := perfReadBuffer_eq hlength (by decide)
  refine ⟨hw, ?_, hadv, ?_⟩
  · rw [hread, hrest]
    exact congrArg (fun bytes => some (bytes, hw)) (List.take_append_of_le_length rec.header_le)
  · rw [hadv.rest_eq, hrest]
    exact List.drop_append_of_le_length rec.header_le

/-- A sample record is decoded. -/
theorem parsesAt_transfer (nrLeft : UInt64) (hkind : rec.kind = .sample) {hw : PerfBuffer}
    (hrest : hw.rest = rec.bytes.drop 8 ++ more) :
    ParsesAt hw (transferDataFromBufferToStructure R group.formatGroup nrLeft
        (.ofBytes rec.bytes) (.new group.sampleType)) (rec.bytes.length - 8)
      (0, sampleOf R group.sampleType group.formatGroup (rec.bytes.drop 8)) := by
  obtain ⟨hlength, hnr⟩ : WellFormedPayload group.formatGroup rec.bytes .sample :=
    hkind ▸ rec.payload
  have hsize : (PerfEventHeader.ofBytes rec.bytes).size.toNat =
      sampleRecordSize group.formatGroup := rec.size_eq.trans hlength
  have hpayload : (rec.bytes.drop 8).length = sampleRecordSize group.formatGroup - 8 := by
    rw [List.length_drop, hlength]
  have happend : sampleOf R group.sampleType group.formatGroup (rec.bytes.drop 8 ++ more) =
      sampleOf R group.sampleType group.formatGroup (rec.bytes.drop 8) :=
    sampleOf_append R _ _ hpayload.ge
  rw [← happend, ← hrest, hlength]
  refine parsesAt_transfer_of_size R nrLeft (.new group.sampleType) hsize ?_ fun hgroup => ?_
  · rw [hrest, List.length_append]
    omega
  · have hlong : 8 * 7 + 8 ≤ (rec.bytes.drop 8).length := by
      rw [hpayload, hgroup]
      decide
    rw [hrest, word_append hlong]
    exact hnr hgroup

/-- The payload of a sample record is taken off the buffer, -/
theorem advances_handle_sample (st : SampleReader) (hkind : rec.kind = .sample)
    (hrest : st.hw.rest = rec.bytes.drop 8 ++ more) :
    Advances st.hw (rec.bytes.length - 8) (st.handle group (.ofBytes rec.bytes)).hw := by
  obtain ⟨hw, htransfer, hadv⟩ := parsesAt_transfer (group.nrLeft st) hkind hrest
  rw [Record.kind] at hkind
  simp only [SampleReader.handle, hkind, htransfer]
  rw [if_neg (not_not_intro rfl), addSample_hw]
  exact hadv

/-- that of a record of lost samples, -/
theorem advances_handle_lost (st : SampleReader) (hkind : rec.kind = .lost)
    (hrest : st.hw.rest = rec.bytes.drop 8 ++ more) :
    Advances st.hw (rec.bytes.length - 8) (st.handle group (.ofBytes rec.bytes)).hw := by
  have hlength : rec.bytes.length = 24 := by
    have hpayload := rec.payload
    rw [Record.kind] at hkind
    rwa [hkind] at hpayload
  have havail : (16 : UInt64).toNat ≤ st.hw.rest.length := by
    rw [hrest, List.length_append, List.length_drop, hlength]
    exact Nat.le_add_right _ _
  obtain ⟨hw, hread, hadv⟩ := perfReadBuffer_eq havail (by decide)
  rw [Record.kind] at hkind
  simp only [SampleReader.handle, hkind, hread]
  rw [hlength]
  exact hadv

/-- and that of a record of another type. -/
theorem advances_handle_unknown (st : SampleReader) (hkind : rec.kind = .unknown)
    (hrest : st.hw.rest = rec.bytes.drop 8 ++ more) :
    Advances st.hw (rec.bytes.length - 8) (st.handle group (.ofBytes rec.bytes)).hw := by
  have hheader := rec.header_le
  have hsize := rec.size_eq
  have hne : (PerfEventHeader.ofBytes rec.bytes).size ≠ 0 := by
    rintro hzero
    rw [hzero] at hsize
    simp at hsize
    omega
  have hskip : (toSkip group (.ofBytes rec.bytes)).toNat = rec.bytes.length - 8 := by
    rw [toSkip, if_neg hne, UInt64.toNat_sub_of_le _ _ ?_, UInt16.toNat_toUInt64, hsize]
    · rfl
    · rw [UInt64.le_iff_toNat_le, UInt16.toNat_toUInt64, hsize]
      exact hheader
  rw [Record.kind] at hkind
  simp only [SampleReader.handle, hkind]
  rw [← hskip]
  refine advances_perfSkipBuffer ?_
  rw [hskip, hrest, List.length_append, List.length_drop]
  exact Nat.le_add_right _ _

/-- The payload of a record of any other type stays. -/
theorem handle_of_not_consumed (hconsumed : ¬ rec.Consumed) :
    st.handle group (.ofBytes rec.bytes) = st := by
  obtain hkind | hkind | hkind := Record.not_consumed_iff.mp hconsumed <;>
    rw [Record.kind] at hkind <;> simp only [SampleReader.handle, hkind]

variable (group) in
theorem readRecord_of_read {bytes : List UInt8} {hw : PerfBuffer}
    (hread : st.hw.perfReadBuffer 8 = some (bytes, hw)) :
    Continues (readRecord group) st ({ st with hw := hw }.handle group (.ofBytes bytes)) := by
  rw [Continues, readRecord, hread]

theorem decodedAt_of_read {hw : PerfBuffer}
    (hread : st.hw.perfReadBuffer 8 = some (rec.bytes.take 8, hw))
    (hrest : hw.rest = rec.bytes.drop 8 ++ more) :
    decodedAt group st = rec.sample R group.sampleType := by
  rw [decodedAt, hread]
  simp only [PerfEventHeader.ofBytes_take]
  rw [Record.sample, Record.kind]
  by_cases hkind : (PerfEventHeader.ofBytes rec.bytes).kind = .sample
  · obtain ⟨hw', htransfer, -⟩ :=
      parsesAt_transfer (group.nrLeft { st with hw := hw }) hkind hrest
    rw [if_pos hkind, if_pos hkind, htransfer]
    exact if_pos rfl
  · rw [if_neg hkind, if_neg hkind]

/-- **One record.** An iteration takes a record off the buffer and decodes its sample, -/
theorem readRecord_consumed (hconsumed : rec.Consumed) (hrest : st.hw.rest = rec.bytes ++ more) :
    ∃ st', Continues (readRecord group) st st' ∧ Advances st.hw rec.bytes.length st'.hw ∧
      decodedAt group st = rec.sample R group.sampleType := by
  obtain ⟨hw, hread, hadv, hrest'⟩ := exists_header hrest
  refine ⟨_, readRecord_of_read group hread, ?_, decodedAt_of_read hread hrest'⟩
  rw [PerfEventHeader.ofBytes_take]
  have hheader := rec.header_le
  have hbytes : rec.bytes.length = 8 + (rec.bytes.length - 8) := by omega
  rw [hbytes]
  refine hadv.trans ?_
  cases hkind : rec.kind with
  | sample => exact advances_handle_sample { st with hw := hw } hkind hrest'
  | lost => exact advances_handle_lost { st with hw := hw } hkind hrest'
  | exit => exact absurd hkind hconsumed.1
  | throttle => exact absurd hkind hconsumed.2.1
  | unthrottle => exact absurd hkind hconsumed.2.2
  | unknown => exact advances_handle_unknown { st with hw := hw } hkind hrest'

/-- or takes only its header off the buffer. -/
theorem readRecord_unconsumed (hconsumed : ¬ rec.Consumed)
    (hrest : st.hw.rest = rec.bytes ++ more) :
    ∃ st', Continues (readRecord group) st st' ∧ Advances st.hw 8 st'.hw := by
  obtain ⟨hw, hread, hadv, -⟩ := exists_header hrest
  refine ⟨_, readRecord_of_read group hread, ?_⟩
  rwa [PerfEventHeader.ofBytes_take, handle_of_not_consumed hconsumed]

end OneRecord

/-! ### All records -/

section AllRecords

variable {R : Type} [RealT R] (group : SampleGroup R) {st st' : SampleReader}
  {records : List (Record group.formatGroup)} {rec : Record group.formatGroup} {more : List UInt8}

theorem framed_nil (hrest : st.hw.rest = []) : Framed group st [] := by
  have hread : st.hw.perfReadBuffer 8 = none := perfReadBuffer_eq_none (by rw [hrest]; decide)
  have hleaves : readRecord group st = (false, st) := by rw [readRecord, hread]
  exact (hasTrace_of_leaves hleaves).mpr ⟨rfl, rfl, rest_eq_nil_iff.mp hrest⟩

/-- A record that is taken off the buffer leaves the others to be framed. -/
theorem framed_cons_iff (hcont : Continues (readRecord group) st st')
    (hadv : Advances st.hw rec.bytes.length st'.hw)
    (hdecoded : decodedAt group st = rec.sample R group.sampleType) :
    Framed group st (rec :: records) ↔ Framed group st' records := by
  rw [Framed, hasTrace_of_continues hcont, Framed]
  have hstep : ∀ trace : List SampleReader,
      (st :: trace).filterMap (decodedAt group) =
        (rec :: records).filterMap (fun rec => rec.sample R group.sampleType) ↔
      trace.filterMap (decodedAt group) =
        records.filterMap (fun rec => rec.sample R group.sampleType) := by
    intro trace
    rw [List.filterMap_cons, List.filterMap_cons, hdecoded]
    cases rec.sample R group.sampleType <;> simp
  simp only [hstep, List.map_cons, Record.starts, List.cons.injEq, true_and, hadv.dataTail_eq,
    hadv.dataHead_eq]

/-- After a record of which only the header is taken off, the next header is read from inside of
it. -/
theorem not_framed_cons (hconsumed : ¬ rec.Consumed) (hrest : st.hw.rest = rec.bytes ++ more) :
    ¬ Framed group st (rec :: records) := by
  have hlength : rec.bytes.length = 32 := by
    have hpayload := rec.payload
    obtain hkind | hkind | hkind := Record.not_consumed_iff.mp hconsumed <;>
      rw [Record.kind] at hkind <;> rwa [hkind] at hpayload
  obtain ⟨st', hcont, hadv⟩ := readRecord_unconsumed hconsumed hrest
  have havail : (8 : UInt64).toNat ≤ st'.hw.rest.length := by
    rw [hadv.rest_eq, hrest, List.length_drop, List.length_append, hlength]
    change 8 ≤ 32 + more.length - 8
    omega
  obtain ⟨hw, hread, -⟩ := perfReadBuffer_eq havail (by decide)
  have hcont' := readRecord_of_read group hread
  rw [Framed, hasTrace_of_continues hcont, hasTrace_of_continues hcont']
  rintro ⟨fuel, trace, r, -, hstarts, -⟩
  -- the second header is read 8 bytes behind the first, where no record starts
  rw [List.map_cons, List.map_cons, Record.starts, hadv.dataTail_eq, hlength] at hstarts
  cases records with
  | nil => simp [Record.starts] at hstarts
  | cons rec' records => simp [Record.starts] at hstarts

/-- **Framing.** -/
theorem framed_iff (h : st.hw.rest = records.flatMap Record.bytes) :
    Framed group st records ↔ ∀ rec ∈ records, rec.Consumed := by
  induction records generalizing st with
  | nil => exact iff_of_true (framed_nil group h) (by simp)
  | cons rec records ih =>
    rw [List.flatMap_cons] at h
    rw [List.forall_mem_cons]
    by_cases hconsumed : rec.Consumed
    · obtain ⟨st', hcont, hadv, hdecoded⟩ := readRecord_consumed hconsumed h
      have hrest : st'.hw.rest = records.flatMap Record.bytes := by
        rw [hadv.rest_eq, h, List.drop_left]
      rw [framed_cons_iff group hcont hadv hdecoded, ih hrest]
      exact (and_iff_right hconsumed).symm
    · exact iff_of_false (not_framed_cons group hconsumed h) fun hall => hconsumed hall.1

end AllRecords

/-! ### A record of lost samples and a thread that exits -/

/-- The group of the memory samples. -/
def memoryGroup : SampleGroup ℚ where
  sampleType := .memSample
  formatGroup := false
  acceptPIDFilter := fun _ => true
  mapSize := 9 * 4096
  nrLeft := fun _ => 0

/-- A record of 24 bytes: three samples were lost. -/
def lostBytes : List UInt8 :=
  [2, 0, 0, 0, 0, 0, 24, 0] ++ List.replicate 8 0 ++ [3, 0, 0, 0, 0, 0, 0, 0]

/-- A record of 32 bytes: the samples were throttled. -/
def throttleBytes : List UInt8 :=
  [5, 0, 0, 0, 0, 0, 32, 0] ++ List.replicate 24 0

theorem kind_lostBytes : (PerfEventHeader.ofBytes lostBytes).kind = .lost := by decide

theorem kind_throttleBytes : (PerfEventHeader.ofBytes throttleBytes).kind = .throttle := by decide

def lostRecord : Record memoryGroup.formatGroup where
  bytes := lostBytes
  header_le := Nat.le_of_ble_eq_true rfl
  size_eq := rfl
  payload := kind_lostBytes ▸ rfl

def throttleRecord : Record memoryGroup.formatGroup where
  bytes := throttleBytes
  header_le := Nat.le_of_ble_eq_true rfl
  size_eq := rfl
  payload := kind_throttleBytes ▸ rfl

/-- Some records at the start of the buffer. -/
def readerOf {formatGroup : Bool} (records : List (Record formatGroup)) : SampleReader where
  hw :=
    { data := fun i => (records.flatMap Record.bytes).getD i 0
      logSize := 12
      dataHead := UInt64.ofNat (records.flatMap Record.bytes).length
      dataTail := 0
      page_le := pageBits_le
      logSize_lt := pageBits_lt
      tail_le_head := UInt64.zero_le }
  lastValue := 0
  lastTime := 0
  samplesList := []
  collectedSamples := 0
  processedSamples := 0
  lostSamples := 0
  unknownSamples := 0
  discardedSamples := 0
  numFailures := 0

theorem rest_readerOf {formatGroup : Bool} {records : List (Record formatGroup)}
    (h : (records.flatMap Record.bytes).length < 4096) :
    (readerOf records).hw.rest = records.flatMap Record.bytes := by
  have hlength : (readerOf records).hw.availSz.toNat = (records.flatMap Record.bytes).length := by
    have hlt : (records.flatMap Record.bytes).length < 2 ^ 64 := by omega
    rw [availSz, readerOf, UInt64.sub_zero, UInt64.toNat_ofNat', Nat.mod_eq_of_lt hlt]
  refine List.ext_getElem (by rw [length_rest, hlength]) fun i hi hi' => ?_
  simp [rest, window, readerOf, PerfBuffer.size, Nat.mod_eq_of_lt (hi'.trans h),
    List.getElem?_eq_getElem hi']

theorem framed_iff_lost :
    (readerOf [lostRecord]).hw.rest = lostBytes ∧
      Framed memoryGroup (readerOf [lostRecord]) [lostRecord] := by
  have hrest : (readerOf [lostRecord]).hw.rest = [lostRecord].flatMap Record.bytes :=
    rest_readerOf (by decide)
  have hconsumed : lostRecord.Consumed := by
    simp [Record.Consumed, Record.kind, lostRecord, kind_lostBytes]
  exact ⟨hrest, (framed_iff memoryGroup hrest).mpr (List.forall_mem_singleton.mpr hconsumed)⟩

theorem not_framed :
    (readerOf [throttleRecord]).hw.rest = throttleBytes ∧
      ¬ Framed memoryGroup (readerOf [throttleRecord]) [throttleRecord] := by
  have hrest : (readerOf [throttleRecord]).hw.rest = [throttleRecord].flatMap Record.bytes :=
    rest_readerOf (by decide)
  have hthrottle : ¬ throttleRecord.Consumed :=
    fun hconsumed => hconsumed.2.1 kind_throttleBytes
  exact ⟨hrest, not_framed_cons memoryGroup hthrottle hrest⟩

end Thanos
