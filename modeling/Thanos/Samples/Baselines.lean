import Thanos.Library.Increments
import Thanos.Samples.Framing

/-!
# Baselines

The counters run on from sample to sample, and `process_sample_buf` puts the increments over the
last sample into the vector. The value and the time of the last sample are kept for the next
buffer; a time of 0 says that there is none.

* **One sample** (`extends_addSample`): an accepted sample leaves an increment, a baseline or
  neither.
* **One buffer** (`exists_processSampleBuf`): of whole records only the samples that the filter
  accepts matter.
-/

namespace Thanos

open PerfBuffer

/-! ### Increments of one type and CPU -/

/-- The value of a sample. -/
def Pebs.count (sample : Pebs) : ℕ :=
  sample.value.toNat

/-- The running time of a sample. -/
def Pebs.runningTime (sample : Pebs) : ℕ :=
  sample.timeRunning.toNat

/-- The increment over a baseline. -/
def Pebs.increment (baseline sample : Pebs) : Pebs :=
  { sample with
    value := sample.value - baseline.value
    timeRunning := sample.timeRunning - baseline.timeRunning }

/-- The increments of some samples over a baseline and over each other. -/
def incrementsOf (start : Option Pebs) (l : List Pebs) : List Pebs :=
  (increments Pebs.count start l).map fun p => p.1.increment p.2

theorem incrementsOf_append {start : Option Pebs} {l l' : List Pebs} :
    incrementsOf start (l ++ l') =
      incrementsOf start l ++ incrementsOf (baseline Pebs.count start l) l' := by
  rw [incrementsOf, increments_append, List.map_append]
  rfl

/-- `last_value` and `last_time` are those of the baseline, or 0 if there is none. -/
def LastIs (lastValue lastTime : UInt64) : Option Pebs → Prop
  | none => lastValue = 0 ∧ lastTime = 0
  | some sample => lastValue = sample.value ∧ lastTime = sample.timeRunning

section Samples

variable {R : Type} (group : SampleGroup R)

/-- The filter accepts a sample. -/
def SampleGroup.accepts (sample : Pebs) : Bool :=
  group.acceptPIDFilter sample.tid

/-- Two states of a buffer with the same samples in the vector and the same baseline, after
equally many failures. -/
structure SampleReader.SameSamples (st st' : SampleReader) : Prop where
  samplesList : st'.samplesList = st.samplesList
  lastValue : st'.lastValue = st.lastValue
  lastTime : st'.lastTime = st.lastTime
  numFailures : st'.numFailures = st.numFailures

/-- A vector with the increments of some samples appended, and the baseline after them. -/
structure SampleReader.Extends (st : SampleReader) (start : Option Pebs) (l : List Pebs)
    (st' : SampleReader) : Prop where
  samplesList : st'.samplesList = st.samplesList ++ incrementsOf start l
  last : LastIs st'.lastValue st'.lastTime (baseline Pebs.count start l)

variable {group} {st st' st'' : SampleReader} {start : Option Pebs} {sample : Pebs} {l : List Pebs}

namespace SampleReader.SameSamples

theorem refl (st : SampleReader) : st.SameSamples st :=
  ⟨rfl, rfl, rfl, rfl⟩

theorem symm (h : st.SameSamples st') : st'.SameSamples st :=
  ⟨h.samplesList.symm, h.lastValue.symm, h.lastTime.symm, h.numFailures.symm⟩

theorem trans (h : st.SameSamples st') (h' : st'.SameSamples st'') : st.SameSamples st'' :=
  ⟨h'.samplesList.trans h.samplesList, h'.lastValue.trans h.lastValue,
    h'.lastTime.trans h.lastTime, h'.numFailures.trans h.numFailures⟩

variable (group) in
theorem addSample (h : st.SameSamples st') (sample : Pebs) :
    (st.addSample group sample).SameSamples (st'.addSample group sample) := by
  obtain ⟨hlist, hvalue, htime, hfailures⟩ := h
  rw [SampleReader.addSample, SampleReader.addSample, hvalue, htime]
  split_ifs
  · exact ⟨by simp [hlist], rfl, rfl, hfailures⟩
  · exact ⟨hlist, rfl, rfl, hfailures⟩
  · exact ⟨hlist, rfl, rfl, hfailures⟩
  · exact ⟨hlist, rfl, rfl, hfailures⟩

variable (group) in
theorem foldl_addSample (h : st.SameSamples st') (l : List Pebs) :
    (l.foldl (SampleReader.addSample group) st).SameSamples
      (l.foldl (SampleReader.addSample group) st') := by
  induction l generalizing st st' with
  | nil => exact h
  | cons sample l ih => exact ih (h.addSample group sample)

end SampleReader.SameSamples

theorem SampleReader.Extends.cons {st st' st'' : SampleReader} (h : st.Extends start [sample] st')
    (h' : st'.Extends (baseline Pebs.count start [sample]) l st'') :
    st.Extends start (sample :: l) st'' := by
  constructor
  · rw [← List.singleton_append, incrementsOf_append, ← List.append_assoc, ← h.samplesList,
      h'.samplesList]
  · rw [← List.singleton_append, baseline_append]
    exact h'.last

theorem SampleReader.Extends.congr (h : st.Extends start l st') (h' : st'.SameSamples st'') :
    st.Extends start l st'' := by
  obtain ⟨hlist, hlast⟩ := h
  constructor
  · rw [h'.samplesList, hlist]
  · rw [h'.lastValue, h'.lastTime]
    exact hlast

theorem numFailures_addSample : (st.addSample group sample).numFailures = st.numFailures := by
  rw [SampleReader.addSample]
  split_ifs <;> rfl

theorem numFailures_foldl_addSample :
    (l.foldl (SampleReader.addSample group) st).numFailures = st.numFailures := by
  induction l generalizing st with
  | nil => rfl
  | cons sample l ih => exact ih.trans numFailures_addSample

/-- What becomes of an accepted sample, -/
theorem extends_addSample (haccept : group.accepts sample = true)
    (hlast : LastIs st.lastValue st.lastTime start)
    (hpos : ∀ b ∈ start, b.timeRunning ≠ 0) :
    st.Extends start [sample] (st.addSample group sample) := by
  rw [SampleGroup.accepts] at haccept
  rw [SampleReader.addSample, if_pos haccept]
  rcases start with _ | b
  · -- the sample is the new baseline
    obtain ⟨hvalue, htime⟩ := hlast
    rw [if_neg (not_not_intro htime)]
    exact ⟨by simp [incrementsOf, increments], rfl, rfl⟩
  · obtain ⟨hvalue, htime⟩ := hlast
    have hvalid : st.lastTime ≠ 0 := htime ▸ hpos b rfl
    have hiff : st.lastValue < sample.value ↔ b.count < sample.count :=
      hvalue ▸ UInt64.lt_iff_toNat_lt
    rw [if_pos hvalid]
    by_cases hlt : b.count < sample.count
    · rw [if_pos (hiff.mpr hlt)]
      constructor
      · simp [incrementsOf, increments, hlt, Pebs.increment, hvalue, htime]
      · rw [baseline, if_pos hlt]
        exact ⟨rfl, rfl⟩
    · -- the counter has not moved: the baseline is dropped
      rw [if_neg fun h => hlt (hiff.mp h)]
      constructor
      · simp [incrementsOf, increments, hlt]
      · rw [baseline, if_neg hlt]
        exact ⟨rfl, rfl⟩

/-- and of one that is filtered out. -/
theorem sameSamples_addSample (haccept : ¬ group.accepts sample = true) :
    st.SameSamples (st.addSample group sample) := by
  rw [SampleGroup.accepts] at haccept
  rw [SampleReader.addSample, if_neg haccept]
  exact ⟨rfl, rfl, rfl, rfl⟩

/-- There is a running time in a baseline if there is one in all samples. -/
theorem timeRunning_baseline (hpos : ∀ b ∈ start, b.timeRunning ≠ 0)
    (hl : ∀ sample ∈ l, sample.timeRunning ≠ 0) :
    ∀ b ∈ baseline Pebs.count start l, b.timeRunning ≠ 0 := by
  intro b hb
  obtain hb | hb := mem_of_baseline hb
  · exact hpos b hb
  · exact hl b hb

/-- All samples. -/
theorem extends_foldl_addSample (hlast : LastIs st.lastValue st.lastTime start)
    (hpos : ∀ b ∈ start, b.timeRunning ≠ 0)
    (hl : ∀ sample ∈ l, group.accepts sample = true → sample.timeRunning ≠ 0) :
    st.Extends start (l.filter group.accepts)
      (l.foldl (SampleReader.addSample group) st) := by
  induction l generalizing st start with
  | nil => exact ⟨by simp [incrementsOf, increments], hlast⟩
  | cons sample l ih =>
    have htail : ∀ sample ∈ l, group.accepts sample = true → sample.timeRunning ≠ 0 :=
      fun a ha => hl a (List.mem_cons_of_mem sample ha)
    by_cases haccept : group.accepts sample = true
    · have hstep := extends_addSample haccept hlast hpos
      have hpos' := timeRunning_baseline hpos
        (List.forall_mem_singleton.mpr (hl sample List.mem_cons_self haccept))
      rw [List.filter_cons_of_pos haccept]
      exact hstep.cons (ih hstep.last hpos' htail)
    · obtain ⟨hlist, hvalue, htime, -⟩ : st.SameSamples (st.addSample group sample) :=
        sameSamples_addSample haccept
      have hlast' : LastIs (st.addSample group sample).lastValue
          (st.addSample group sample).lastTime start := by rwa [hvalue, htime]
      obtain ⟨hlist', hlast''⟩ := ih hlast' hpos htail
      rw [List.filter_cons_of_neg haccept]
      exact ⟨hlist'.trans (by rw [hlist]), hlast''⟩

end Samples

/-! ### The records of one buffer -/

section OneBuffer

variable {R : Type} [RealT R] (group : SampleGroup R)

/-- The samples in some records. -/
def decodedSamples (records : List (Record group.formatGroup)) : List Pebs :=
  records.filterMap fun rec => rec.sample R group.sampleType

/-- The samples in some records that the filter accepts. -/
def acceptedSamples (records : List (Record group.formatGroup)) : List Pebs :=
  (decodedSamples group records).filter group.accepts

variable {group} {st : SampleReader} {rec : Record group.formatGroup}
  {records : List (Record group.formatGroup)} {more : List UInt8}

/-- A record changes the vector and the baseline through its sample only. -/
theorem sameSamples_handle (st : SampleReader) (hrest : st.hw.rest = rec.bytes.drop 8 ++ more) :
    (((rec.sample R group.sampleType).toList).foldl (SampleReader.addSample group) st).SameSamples
      (st.handle group (.ofBytes rec.bytes)) := by
  by_cases hkind : rec.kind = .sample
  · obtain ⟨hw, htransfer, -⟩ := parsesAt_transfer (group.nrLeft st) hkind hrest
    have hstart : st.SameSamples
        { st with hw := hw, collectedSamples := st.collectedSamples + 1 } := ⟨rfl, rfl, rfl, rfl⟩
    rw [Record.sample, if_pos hkind]
    rw [Record.kind] at hkind
    simp only [SampleReader.handle, hkind, htransfer]
    rw [if_neg (not_not_intro rfl)]
    exact hstart.addSample group _
  · rw [Record.sample, if_neg hkind]
    rw [Record.kind] at hkind
    -- whatever is done with another record concerns its payload and the statistics
    rw [SampleReader.handle]
    rcases hkind' : (PerfEventHeader.ofBytes rec.bytes).kind with _ | _ | _ | _ | _ | _
    · rcases st.hw.perfReadBuffer 16 with _ | ⟨bytes, hw⟩
      · exact .refl st
      · exact ⟨rfl, rfl, rfl, rfl⟩
    · exact .refl st
    · exact .refl st
    · exact .refl st
    · exact absurd hkind' hkind
    · exact ⟨rfl, rfl, rfl, rfl⟩

/-- An iteration of the loop. -/
theorem readRecord_sameSamples (hconsumed : rec.Consumed) (hrest : st.hw.rest = rec.bytes ++ more) :
    ∃ st', Continues (readRecord group) st st' ∧ st'.hw.rest = more ∧
      (((rec.sample R group.sampleType).toList).foldl (SampleReader.addSample group) st).SameSamples
        st' := by
  obtain ⟨st', hcont, hadv, -⟩ := readRecord_consumed hconsumed hrest
  refine ⟨st', hcont, by rw [hadv.rest_eq, hrest, List.drop_left], ?_⟩
  obtain ⟨hw, hread, -, hrest'⟩ := exists_header hrest
  have hcont' := readRecord_of_read group hread
  rw [PerfEventHeader.ofBytes_take, Continues, hcont] at hcont'
  rw [(Prod.mk.inj hcont').2]
  have hstart : st.SameSamples { st with hw := hw } := ⟨rfl, rfl, rfl, rfl⟩
  exact (hstart.foldl_addSample group _).trans (sameSamples_handle { st with hw := hw } hrest')

/-- **One buffer.** -/
theorem exists_processSampleBuf (hrest : st.hw.rest = records.flatMap Record.bytes)
    (hconsumed : ∀ rec ∈ records, rec.Consumed) :
    ∃ fuel r, processSampleBuf group fuel st = some r ∧
      ((decodedSamples group records).foldl (SampleReader.addSample group) st).SameSamples r := by
  induction records generalizing st with
  | nil =>
    have hread : st.hw.perfReadBuffer 8 = none :=
      perfReadBuffer_eq_none (by rw [hrest, List.flatMap_nil]; decide)
    have hleaves : readRecord group st = (false, st) := by rw [readRecord, hread]
    exact ⟨1, st, doWhile_succ_of_leaves hleaves, .refl st⟩
  | cons rec records ih =>
    obtain ⟨hrec, hrecords⟩ := List.forall_mem_cons.mp hconsumed
    rw [List.flatMap_cons] at hrest
    obtain ⟨st', hcont, hrest', hstep⟩ := readRecord_sameSamples hrec hrest
    obtain ⟨fuel, r, hrun, hsame⟩ := ih hrest' hrecords
    refine ⟨fuel + 1, r, by rw [processSampleBuf, doWhile_succ_of_continues hcont]; exact hrun, ?_⟩
    have hsplit : decodedSamples group (rec :: records) =
        (rec.sample R group.sampleType).toList ++ decodedSamples group records := by
      rw [decodedSamples, List.filterMap_cons]
      cases rec.sample R group.sampleType <;> rfl
    rw [hsplit, List.foldl_append]
    exact (hstep.foldl_addSample group _).trans hsame

end OneBuffer

end Thanos
