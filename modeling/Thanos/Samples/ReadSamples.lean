import Mathlib.Data.List.ProdSigma
import Mathlib.Logic.Function.Basic
import Thanos.Samples.Baselines
import Thanos.SystemInfo.Topology

/-!
# Calls of `read_samples`

`read_samples` processes the buffers of all sample types and CPUs one after another and gathers
the samples in one vector. What is left for the next call are the baselines, one for each type
and CPU.

* **One call** (`settles_readSamples`): each buffer is processed with the baseline that the last
  call left for it.
* **All calls** (`telescopes_readSamples_iff`): the increments of a type and a CPU add up exactly
  when no repeated value loses them.
-/

namespace Thanos

/-! ### The variables of the sampling -/

/-- A sample type and a CPU. -/
abbrev BufferKey :=
  SampleType × Cpu

/-- The variables of `perf_event.cpp` that `read_samples` updates. The tables of the buffers have
an entry for each CPU, as `init_internal_variables` leaves them. -/
structure Sampling where
  /-- The memory mapped regions of `all_fds`. -/
  buffers : BufferKey → PerfBuffer
  samplesLastValues : BufferKey → UInt64
  samplesLastTimes : BufferKey → UInt64
  collectedSamplesGroup : SampleType → ℕ
  processedSamplesGroup : SampleType → ℕ
  lostSamplesGroup : SampleType → ℕ
  bufferReads : SampleType → ℕ
  unknownSamples : ℕ
  discardedSamples : ℕ
  numFailures : ℕ

/-- What the calls do not change. -/
structure SamplingSetup (R : Type) where
  topology : Topology
  /-- There are several events in the groups of a type. -/
  formatGroup : SampleType → Bool
  mapSize : UInt64
  nrLeft : SampleReader → UInt64
  /-- The regions that are mapped by a reboot. -/
  newBuffers : BufferKey → PerfBuffer

/-- `MAX_FAILURES_BEFORE_REBOOT`. -/
def maxFailuresBeforeReboot : ℕ := 100

/-- All types, in the order of `groups`. -/
def SampleType.all : List SampleType :=
  [.memSample, .reqSample, .insSample, .fpScalarSample, .fp128bDSample, .fp128bSSample,
    .fp256bDSample, .fp256bSSample]

/-- A call of `read_samples`: whether `poll` is interrupted, and what the filter accepts. -/
structure SamplingCall where
  interrupted : Bool
  acceptPIDFilter : Pid → Bool

namespace Sampling

/-- `init_internal_variables`. -/
def initInternalVariables (s : Sampling) : Sampling :=
  { s with
    samplesLastValues := fun _ => 0
    samplesLastTimes := fun _ => 0
    collectedSamplesGroup := fun _ => 0
    processedSamplesGroup := fun _ => 0
    lostSamplesGroup := fun _ => 0
    bufferReads := fun _ => 0
    unknownSamples := 0 }

/-- The variables after `init`. -/
def start (buffers : BufferKey → PerfBuffer) : Sampling :=
  initInternalVariables
    { buffers := buffers
      samplesLastValues := fun _ => 0
      samplesLastTimes := fun _ => 0
      collectedSamplesGroup := fun _ => 0
      processedSamplesGroup := fun _ => 0
      lostSamplesGroup := fun _ => 0
      bufferReads := fun _ => 0
      unknownSamples := 0
      discardedSamples := 0
      numFailures := 0 }

/-- `emergency_reboot`, if it succeeds. -/
def emergencyReboot (newBuffers : BufferKey → PerfBuffer) (s : Sampling) : Sampling :=
  { s.initInternalVariables with
    buffers := newBuffers
    numFailures := 0 }

/-- `emergency_reboot` after too many failures. -/
def rebootIfFailing (newBuffers : BufferKey → PerfBuffer) (s : Sampling) : Sampling :=
  if maxFailuresBeforeReboot < s.numFailures then s.emergencyReboot newBuffers else s

/-- The variables that `process_sample_buf` is called with. -/
def reader (s : Sampling) (samples : List Pebs) (key : BufferKey) : SampleReader where
  hw := s.buffers key
  lastValue := s.samplesLastValues key
  lastTime := s.samplesLastTimes key
  samplesList := samples
  collectedSamples := s.collectedSamplesGroup key.1
  processedSamples := s.processedSamplesGroup key.1
  lostSamples := s.lostSamplesGroup key.1
  unknownSamples := s.unknownSamples
  discardedSamples := s.discardedSamples
  numFailures := s.numFailures

/-- The variables after `process_sample_buf`, and one more buffer read. -/
def store (s : Sampling) (key : BufferKey) (r : SampleReader) : Sampling where
  buffers := Function.update s.buffers key r.hw
  samplesLastValues := Function.update s.samplesLastValues key r.lastValue
  samplesLastTimes := Function.update s.samplesLastTimes key r.lastTime
  collectedSamplesGroup := Function.update s.collectedSamplesGroup key.1 r.collectedSamples
  processedSamplesGroup := Function.update s.processedSamplesGroup key.1 r.processedSamples
  lostSamplesGroup := Function.update s.lostSamplesGroup key.1 r.lostSamples
  bufferReads := Function.update s.bufferReads key.1 (s.bufferReads key.1 + 1)
  unknownSamples := r.unknownSamples
  discardedSamples := r.discardedSamples
  numFailures := r.numFailures

end Sampling

/-! ### The calls -/

section Calls

variable {R : Type} (setup : SamplingSetup R)

namespace SamplingSetup

/-- The group of a type. -/
def group (acceptPIDFilter : Pid → Bool) (type : SampleType) : SampleGroup R where
  sampleType := type
  formatGroup := setup.formatGroup type
  acceptPIDFilter := acceptPIDFilter
  mapSize := setup.mapSize
  nrLeft := setup.nrLeft

/-- The buffers in the order in which they are read. -/
def bufferKeys : List BufferKey :=
  SampleType.all ×ˢ setup.topology.cpus

theorem bufferKeys_nodup : setup.bufferKeys.Nodup :=
  List.Nodup.product (by decide) setup.topology.cpus_nodup

theorem mem_bufferKeys {type : SampleType} {cpu : Cpu} :
    (type, cpu) ∈ setup.bufferKeys ↔ cpu ∈ setup.topology.cpus := by
  have hall : type ∈ SampleType.all := by cases type <;> decide
  exact List.pair_mem_product.trans (and_iff_right hall)

end SamplingSetup

variable [RealT R]

/-- One iteration of the loop over the buffers. -/
def readBuffer (fuel : ℕ) (call : SamplingCall) (s : Sampling × List Pebs) (key : BufferKey) :
    Option (Sampling × List Pebs) :=
  (processSampleBuf (setup.group call.acceptPIDFilter key.1) fuel (s.1.reader s.2 key)).map
    fun r => (s.1.store key r, r.samplesList)

/-- `read_samples`, for a number of iterations in each buffer. -/
def readSamples (fuel : ℕ) (call : SamplingCall) (s : Sampling) :
    Option (Sampling × List Pebs) :=
  if call.interrupted then some (s, [])
  else
    (setup.bufferKeys.foldlM (readBuffer setup fuel call) (s, [])).map fun r =>
      (r.1.rebootIfFailing setup.newBuffers, r.2)

/-! ### What is emitted for a buffer -/

/-- The loop over the buffers, together with what `process_sample_buf` appends to the vector for
one of them. -/
def readBuffersTrace (fuel : ℕ) (call : SamplingCall) (key : BufferKey) :
    List BufferKey → Sampling × List Pebs → Option (List Pebs × Sampling × List Pebs)
  | [], s => some ([], s)
  | k :: keys, s =>
    (readBuffer setup fuel call s k).bind fun s' =>
      (readBuffersTrace fuel call key keys s').map fun r =>
        (if k = key then s'.2.drop s.2.length ++ r.1 else r.1, r.2)

/-- `read_samples`, together with what is emitted for a buffer. -/
def readSamplesTrace (fuel : ℕ) (call : SamplingCall) (key : BufferKey) (s : Sampling) :
    Option (List Pebs × Sampling × List Pebs) :=
  if call.interrupted then some ([], s, [])
  else
    (readBuffersTrace setup fuel call key setup.bufferKeys (s, [])).map fun r =>
      (r.1, r.2.1.rebootIfFailing setup.newBuffers, r.2.2)

variable {setup} {fuel : ℕ} {call : SamplingCall} {key : BufferKey}

variable (setup call key) in
theorem readBuffersTrace_snd {keys : List BufferKey} {s : Sampling × List Pebs} :
    (readBuffersTrace setup fuel call key keys s).map Prod.snd =
      keys.foldlM (readBuffer setup fuel call) s := by
  induction keys generalizing s with
  | nil => rfl
  | cons k keys ih =>
    rw [readBuffersTrace, List.foldlM_cons]
    rcases readBuffer setup fuel call s k with _ | s'
    · rfl
    · change ((readBuffersTrace setup fuel call key keys s').map _).map Prod.snd = _
      rw [Option.map_map]
      exact ih

/-- The trace of a call ends with what the call returns. -/
theorem readSamplesTrace_snd {s : Sampling} :
    (readSamplesTrace setup fuel call key s).map Prod.snd = readSamples setup fuel call s := by
  unfold readSamplesTrace readSamples
  split_ifs
  · rfl
  · rw [← readBuffersTrace_snd setup call key, Option.map_map, Option.map_map]
    rfl

end Calls

/-! ### One call -/

section OneCall

variable {R : Type} [RealT R] (setup : SamplingSetup R)

/-- A call of `read_samples` when there are whole records in the buffers. -/
structure DecodedCall extends SamplingCall where
  buffers : BufferKey → PerfBuffer
  records : ∀ key : BufferKey, List (Record (setup.formatGroup key.1))
  rest_eq : ∀ key ∈ setup.bufferKeys, (buffers key).rest = (records key).flatMap Record.bytes
  consumed : ∀ key ∈ setup.bufferKeys, ∀ rec ∈ records key, rec.Consumed

variable {setup}

/-- The samples in a buffer that the filter accepts. -/
def DecodedCall.acceptedIn (call : DecodedCall setup) (key : BufferKey) : List Pebs :=
  acceptedSamples (setup.group call.acceptPIDFilter key.1) (call.records key)

/-- The baseline of a buffer. -/
def Sampling.HasBaseline (s : Sampling) (key : BufferKey) : Option Pebs → Prop :=
  LastIs (s.samplesLastValues key) (s.samplesLastTimes key)

variable {call : DecodedCall setup} {key k : BufferKey} {s s' : Sampling} {samples : List Pebs}
  {start : Option Pebs}

/-- What the processing of a buffer leaves of the others. -/
structure Sampling.KeepsOthers (k : BufferKey) (s s' : Sampling) : Prop where
  buffers : ∀ key, key ≠ k → s'.buffers key = s.buffers key
  samplesLastValues : ∀ key, key ≠ k → s'.samplesLastValues key = s.samplesLastValues key
  samplesLastTimes : ∀ key, key ≠ k → s'.samplesLastTimes key = s.samplesLastTimes key

theorem Sampling.keepsOthers_store {r : SampleReader} : s.KeepsOthers k (s.store k r) :=
  ⟨fun _ hne => Function.update_of_ne hne .., fun _ hne => Function.update_of_ne hne ..,
    fun _ hne => Function.update_of_ne hne ..⟩

theorem hasBaseline_store {r : SampleReader} :
    (s.store k r).HasBaseline k start ↔ LastIs r.lastValue r.lastTime start := by
  simp [Sampling.HasBaseline, Sampling.store]

/-- A buffer that is read. -/
theorem settles_readBuffer (samples : List Pebs) (hk : k ∈ setup.bufferKeys)
    (hs : s.buffers k = call.buffers k) :
    ∃ r, Settles (fun fuel => readBuffer setup fuel call.toSamplingCall (s, samples) k)
        (s.store k r, r.samplesList) ∧ r.numFailures = s.numFailures ∧
      ∀ start, s.HasBaseline k start → (∀ b ∈ start, b.timeRunning ≠ 0) →
        (∀ sample ∈ call.acceptedIn k, sample.timeRunning ≠ 0) →
        (s.reader samples k).Extends start (call.acceptedIn k) r := by
  have hrest : (s.reader samples k).hw.rest = (call.records k).flatMap Record.bytes := by
    rw [Sampling.reader, hs]
    exact call.rest_eq k hk
  obtain ⟨fuel, r, hrun, hsame⟩ : ∃ fuel r,
      processSampleBuf (setup.group call.acceptPIDFilter k.1) fuel (s.reader samples k) = some r ∧
        ((decodedSamples (setup.group call.acceptPIDFilter k.1) (call.records k)).foldl
          (SampleReader.addSample _) (s.reader samples k)).SameSamples r :=
    exists_processSampleBuf hrest (call.consumed k hk)
  refine ⟨r, (settles_doWhile hrun).map, ?_, fun start hstart hpos hl => ?_⟩
  · rw [hsame.numFailures, numFailures_foldl_addSample]
    rfl
  · have hlast : LastIs (s.reader samples k).lastValue (s.reader samples k).lastTime start :=
      hstart
    have hextends := extends_foldl_addSample hlast hpos fun sample hsample haccept =>
      hl sample (List.mem_filter.mpr ⟨hsample, haccept⟩)
    exact hextends.congr hsame

variable (key) in
theorem settles_readBuffersTrace_cons {call : SamplingCall} {keys : List BufferKey}
    {s s' : Sampling × List Pebs} {r : List Pebs × Sampling × List Pebs}
    (hread : Settles (fun fuel => readBuffer setup fuel call s k) s')
    (hrest : Settles (fun fuel => readBuffersTrace setup fuel call key keys s') r) :
    Settles (fun fuel => readBuffersTrace setup fuel call key (k :: keys) s)
      (if k = key then s'.2.drop s.2.length ++ r.1 else r.1, r.2) := by
  simp only [readBuffersTrace]
  exact hread.bind hrest.map

/-- Some buffers are read. The accepted samples are those in the buffer, if it is among them. -/
theorem settles_readBuffersTrace (samples : List Pebs) {keys : List BufferKey}
    (hkeys : keys ⊆ setup.bufferKeys) (hnodup : keys.Nodup)
    (hs : ∀ k ∈ keys, s.buffers k = call.buffers k)
    (hstart : s.HasBaseline key start) (hpos : ∀ b ∈ start, b.timeRunning ≠ 0)
    (hl : ∀ sample ∈ call.acceptedIn key, sample.timeRunning ≠ 0) {l : List Pebs}
    (hmem : key ∈ keys → l = call.acceptedIn key) (hnot : key ∉ keys → l = []) :
    ∃ s' samples', Settles
        (fun fuel => readBuffersTrace setup fuel call.toSamplingCall key keys (s, samples))
        (incrementsOf start l, s', samples') ∧
      s'.HasBaseline key (baseline Pebs.count start l) ∧ s'.numFailures = s.numFailures := by
  induction keys generalizing s samples start l with
  | nil =>
    obtain rfl := hnot List.not_mem_nil
    exact ⟨s, samples, settles_some, hstart, rfl⟩
  | cons k keys ih =>
    obtain ⟨hk, hkeys⟩ := List.cons_subset.mp hkeys
    obtain ⟨hnew, hnodup⟩ := List.nodup_cons.mp hnodup
    obtain ⟨r, hread, hfailures, hextends⟩ :=
      settles_readBuffer samples hk (hs k List.mem_cons_self)
    have hothers : s.KeepsOthers k (s.store k r) := Sampling.keepsOthers_store
    have hs' : ∀ k' ∈ keys, (s.store k r).buffers k' = call.buffers k' := by
      intro k' hk'
      have hne : k' ≠ k := fun h => hnew (h ▸ hk')
      rw [hothers.buffers k' hne]
      exact hs k' (List.mem_cons_of_mem k hk')
    by_cases hkey : k = key
    · -- the buffer in question, which is not among the later ones
      subst hkey
      obtain rfl := hmem List.mem_cons_self
      obtain ⟨hlist, hlast⟩ := hextends start hstart hpos hl
      have hstart' : (s.store k r).HasBaseline k _ := hasBaseline_store.mpr hlast
      obtain ⟨s', samples', hrest, hlast', hfailures'⟩ := ih r.samplesList hkeys hnodup hs'
        hstart' (timeRunning_baseline hpos hl) (fun h => absurd h hnew) (fun _ => rfl)
      have htrace := settles_readBuffersTrace_cons k hread hrest
      have happended : r.samplesList.drop samples.length =
          incrementsOf start (call.acceptedIn k) := by
        rw [hlist]
        exact List.drop_left
      rw [if_pos rfl, happended] at htrace
      refine ⟨s', samples', ?_, hlast', hfailures'.trans hfailures⟩
      rwa [← List.append_nil (call.acceptedIn k), incrementsOf_append]
    · -- another buffer, which leaves the baseline alone
      have hstart' : (s.store k r).HasBaseline key start := by
        rw [Sampling.HasBaseline, hothers.samplesLastValues key (Ne.symm hkey),
          hothers.samplesLastTimes key (Ne.symm hkey)]
        exact hstart
      obtain ⟨s', samples', hrest, hlast', hfailures'⟩ := ih r.samplesList hkeys hnodup
        hs' hstart' hpos
        (fun h => hmem (List.mem_cons_of_mem k h)) (fun h => hnot (by simp [h, Ne.symm hkey]))
      have htrace := settles_readBuffersTrace_cons key hread hrest
      rw [if_neg hkey] at htrace
      exact ⟨s', samples', htrace, hlast', hfailures'.trans hfailures⟩

/-- The accepted samples that a call reads from a buffer. -/
def DecodedCall.accepted (call : DecodedCall setup) (key : BufferKey) : List Pebs :=
  if call.interrupted then [] else call.acceptedIn key

/-- **One call.** -/
theorem settles_readSamplesTrace (hkey : key ∈ setup.bufferKeys)
    (hs : s.buffers = call.buffers) (hstart : s.HasBaseline key start)
    (hpos : ∀ b ∈ start, b.timeRunning ≠ 0)
    (hl : ∀ sample ∈ call.accepted key, sample.timeRunning ≠ 0) (hfailures : s.numFailures = 0) :
    ∃ s' samples', Settles
        (fun fuel => readSamplesTrace setup fuel call.toSamplingCall key s)
        (incrementsOf start (call.accepted key), s', samples') ∧
      s'.HasBaseline key (baseline Pebs.count start (call.accepted key)) ∧
      s'.numFailures = 0 := by
  rw [DecodedCall.accepted] at hl ⊢
  by_cases hinterrupted : call.interrupted = true
  · simp only [readSamplesTrace, if_pos hinterrupted]
    exact ⟨s, [], settles_some, hstart, hfailures⟩
  · rw [if_neg hinterrupted] at hl ⊢
    obtain ⟨s', samples', htrace, hlast, hfailures'⟩ := settles_readBuffersTrace []
      (List.Subset.refl setup.bufferKeys) setup.bufferKeys_nodup
      (fun k _ => congrFun hs k) hstart hpos hl (fun _ => rfl) (fun h => absurd hkey h)
    -- without failures there is no reboot, which would reset the baselines
    have hkeeps : s'.rebootIfFailing setup.newBuffers = s' := by
      rw [Sampling.rebootIfFailing, hfailures', hfailures]
      rfl
    refine ⟨s', samples', ?_, hlast, hfailures'.trans hfailures⟩
    simp only [readSamplesTrace, if_neg hinterrupted]
    have hmap := htrace.map (k := fun r => (r.1, r.2.1.rebootIfFailing setup.newBuffers, r.2.2))
    rwa [hkeeps] at hmap

end OneCall

/-! ### All calls -/

section AllCalls

variable {R : Type} [RealT R] {setup : SamplingSetup R}

/-- What `process_sample_buf` emits for a buffer in some calls of `read_samples`. -/
def emittedOver (fuel : ℕ) (key : BufferKey) : List (DecodedCall setup) → Sampling →
    Option (List Pebs)
  | [], _ => some []
  | call :: calls, s =>
    (readSamplesTrace setup fuel call.toSamplingCall key { s with buffers := call.buffers }).bind
      fun r => (emittedOver fuel key calls r.2.1).map fun later => r.1 ++ later

/-- The accepted samples of a buffer in some calls. -/
def acceptedOver (key : BufferKey) (calls : List (DecodedCall setup)) : List Pebs :=
  calls.flatMap fun call => call.accepted key

variable {calls : List (DecodedCall setup)} {key : BufferKey} {s : Sampling}
  {start : Option Pebs}

theorem settles_emittedOver (hkey : key ∈ setup.bufferKeys) (hstart : s.HasBaseline key start)
    (hpos : ∀ b ∈ start, b.timeRunning ≠ 0)
    (hl : ∀ sample ∈ acceptedOver key calls, sample.timeRunning ≠ 0)
    (hfailures : s.numFailures = 0) :
    Settles (fun fuel => emittedOver fuel key calls s)
      (incrementsOf start (acceptedOver key calls)) := by
  induction calls generalizing s start with
  | nil => exact settles_some
  | cons call calls ih =>
    obtain ⟨hhere, hlater⟩ := List.forall_mem_append.mp hl
    obtain ⟨s', samples', htrace, hlast, hfailures'⟩ := settles_readSamplesTrace
      (s := { s with buffers := call.buffers }) hkey rfl hstart hpos hhere hfailures
    have hrest := ih hlast (timeRunning_baseline hpos hhere) hlater hfailures'
    rw [acceptedOver, List.flatMap_cons, incrementsOf_append]
    simp only [emittedOver]
    exact htrace.bind hrest.map

/-- Values and times add up to what the samples grow by from the first one to the last. -/
def AddsUp (b : Pebs) (l emitted : List Pebs) : Prop :=
  (emitted.map Pebs.count).sum = (l.getLastD b).count - b.count ∧
    (emitted.map Pebs.runningTime).sum = (l.getLastD b).runningTime - b.runningTime

/-- The increments of samples that never decrease do not wrap. -/
theorem addsUp_incrementsOf_iff {b : Pebs} {l : List Pebs}
    (h : Increasing Pebs.count Pebs.runningTime (b :: l)) :
    AddsUp b l (incrementsOf none (b :: l)) ↔
      NothingLost Pebs.count Pebs.runningTime b l := by
  rw [← telescopes_iff h, Telescopes, AddsUp]
  have hcount : (incrementsOf none (b :: l)).map Pebs.count =
      (increments Pebs.count (some b) l).map fun p => p.2.count - p.1.count := by
    rw [incrementsOf, List.map_map]
    refine List.map_congr_left fun p hp => UInt64.toNat_sub_of_le _ _ ?_
    exact UInt64.le_iff_toNat_le.mpr (le_of_mem_increments (h.imp And.left) (.inr rfl) hp)
  have htime : (incrementsOf none (b :: l)).map Pebs.runningTime =
      (increments Pebs.count (some b) l).map fun p => p.2.runningTime - p.1.runningTime := by
    rw [incrementsOf, List.map_map]
    refine List.map_congr_left fun p hp => UInt64.toNat_sub_of_le _ _ ?_
    exact UInt64.le_iff_toNat_le.mpr (le_of_mem_increments (h.imp And.right) (.inr rfl) hp)
  rw [hcount, htime]
  rfl

/-- **All calls.** -/
theorem telescopes_readSamples_iff (setup : SamplingSetup R) (calls : List (DecodedCall setup))
    (buffers : BufferKey → PerfBuffer) {type : SampleType} {cpu : Cpu}
    (hcpu : cpu ∈ setup.topology.cpus) {b : Pebs} {l : List Pebs}
    (haccepted : acceptedOver (type, cpu) calls = b :: l)
    (hincreasing : Increasing Pebs.count Pebs.runningTime (b :: l))
    (hpos : ∀ sample ∈ b :: l, sample.timeRunning ≠ 0) :
    ∃ emitted,
      Settles (fun fuel => emittedOver fuel (type, cpu) calls (.start buffers)) emitted ∧
        (AddsUp b l emitted ↔ NothingLost Pebs.count Pebs.runningTime b l) := by
  refine ⟨incrementsOf none (b :: l), ?_, addsUp_incrementsOf_iff hincreasing⟩
  rw [← haccepted] at hpos ⊢
  exact settles_emittedOver ((setup.mem_bufferKeys).mpr hcpu) ⟨rfl, rfl⟩
    (fun b hb => absurd hb (Option.not_mem_none b)) hpos rfl

end AllCalls

/-! ### Memory samples on a machine with one CPU -/

/-- One CPU, without `PERF_FORMAT_GROUP`. -/
def oneCpuSetup : SamplingSetup ℚ where
  topology := .regular 1 1 Nat.one_pos Nat.one_pos
  formatGroup := fun _ => false
  mapSize := 9 * 4096
  nrLeft := fun _ => 0
  newBuffers := fun _ => (@readerOf false []).hw

theorem mem_cpus_oneCpuSetup : 0 ∈ oneCpuSetup.topology.cpus :=
  List.mem_range.mpr Nat.one_pos

/-- A record of a memory sample with some value and some running time. -/
def sampleBytes (value time : UInt8) : List UInt8 :=
  [9, 0, 0, 0, 0, 0, 104, 0] ++ List.replicate 56 0 ++ [value, 0, 0, 0, 0, 0, 0, 0] ++
    [time, 0, 0, 0, 0, 0, 0, 0] ++ [time, 0, 0, 0, 0, 0, 0, 0] ++ List.replicate 16 0

theorem kind_sampleBytes (value time : UInt8) :
    (PerfEventHeader.ofBytes (sampleBytes value time)).kind = .sample := by
  rfl

def sampleRecord (value time : UInt8) : Record false where
  bytes := sampleBytes value time
  header_le := Nat.le_of_ble_eq_true rfl
  size_eq := rfl
  payload := kind_sampleBytes value time ▸ ⟨rfl, fun h => absurd h Bool.false_ne_true⟩

/-- The sample in such a record. -/
def plainSample (value time : UInt8) : Pebs :=
  { Pebs.new .memSample with
    value := value.toUInt64
    timeEnabled := time.toUInt64
    timeRunning := time.toUInt64 }

/-- A value is not scaled if the counter has been running all the time. -/
theorem perfScale_self {value time : UInt64} (htime : time ≠ 0) :
    perfScale ℚ value time time = value := by
  have hne : (time.toNat : ℚ) ≠ 0 := by
    rw [Nat.cast_ne_zero]
    exact fun h => htime (UInt64.toNat_inj.mp h)
  have hscale : (value.toNat : ℚ) * time.toNat / time.toNat = value.toNat :=
    mul_div_cancel_right₀ _ hne
  have htrunc : RealT.trunc ((value.toNat : ℚ) * time.toNat / time.toNat) = (value.toNat : ℤ) := by
    rw [hscale]
    change (if (0 : ℚ) ≤ value.toNat then ⌊(value.toNat : ℚ)⌋ else ⌈(value.toNat : ℚ)⌉) = _
    rw [if_pos (Nat.cast_nonneg _), Int.floor_natCast]
  rw [perfScale, if_neg htime]
  change UInt64.ofNat (RealT.trunc ((value.toNat : ℚ) * time.toNat / time.toNat)).toNat = value
  rw [htrunc, Int.toNat_natCast, UInt64.ofNat_toNat]

/-- A word that starts with some byte and has zeros behind it. -/
theorem word_of_byte {i : ℕ} {byte : UInt8} {bytes : List UInt8}
    (h : (bytes.drop (8 * i)).take 8 = [byte, 0, 0, 0, 0, 0, 0, 0]) :
    PerfBuffer.word i bytes = byte.toUInt64 := by
  rw [PerfBuffer.word, h]
  simp [leNat]

theorem halves_of_zero {i : ℕ} {bytes : List UInt8}
    (h : (bytes.drop (8 * i)).take 8 = List.replicate 8 0) :
    PerfBuffer.halves i bytes = (0, 0) := by
  rw [PerfBuffer.halves, h]
  rfl

theorem sample_sampleRecord {value time : UInt8} (htime : time ≠ 0) :
    (sampleRecord value time).sample ℚ .memSample = some (plainSample value time) := by
  have htime' : time.toUInt64 ≠ 0 := fun h => htime (UInt8.toUInt64_inj.mp h)
  have hkind : (sampleRecord value time).kind = .sample := kind_sampleBytes value time
  have hvalue : PerfBuffer.word 7 ((sampleBytes value time).drop 8) = value.toUInt64 :=
    word_of_byte rfl
  have htimes : ∀ i, i = 8 ∨ i = 9 →
      PerfBuffer.word i ((sampleBytes value time).drop 8) = time.toUInt64 := by
    rintro i (rfl | rfl) <;> exact word_of_byte rfl
  have hwords : ∀ i, i = 0 ∨ i = 2 ∨ i = 3 ∨ i = 10 ∨ i = 11 →
      PerfBuffer.word i ((sampleBytes value time).drop 8) = (0 : UInt8).toUInt64 := by
    rintro i (rfl | rfl | rfl | rfl | rfl) <;> exact word_of_byte rfl
  have hhalves : ∀ i, i = 1 ∨ i = 5 →
      PerfBuffer.halves i ((sampleBytes value time).drop 8) = (0, 0) := by
    rintro i (rfl | rfl) <;> exact halves_of_zero rfl
  rw [Record.sample, if_pos hkind]
  simp [sampleRecord, sampleOf, identityOf, plainSample, Pebs.new, hvalue, htimes, hwords, hhalves,
    perfScale_self htime']

/-- Records of memory samples in the buffer of the CPU, and none in the other buffers. -/
def memoryRecords (samples : List (UInt8 × UInt8)) (key : BufferKey) : List (Record false) :=
  if key = (.memSample, 0) then samples.map fun sample => sampleRecord sample.1 sample.2 else []

theorem consumed_sampleRecord (value time : UInt8) : (sampleRecord value time).Consumed := by
  have hkind : (sampleRecord value time).kind = .sample := kind_sampleBytes value time
  simp [Record.Consumed, hkind]

theorem consumed_memoryRecords {samples : List (UInt8 × UInt8)} (key : BufferKey) :
    ∀ rec ∈ memoryRecords samples key, rec.Consumed := by
  rw [memoryRecords]
  split_ifs
  · exact List.forall_mem_map.mpr fun sample _ => consumed_sampleRecord sample.1 sample.2
  · simp

theorem length_sampleRecords {samples : List (UInt8 × UInt8)} :
    ((samples.map fun sample => sampleRecord sample.1 sample.2).flatMap Record.bytes).length =
      104 * samples.length := by
  induction samples with
  | nil => rfl
  | cons sample samples ih =>
    have hlength : (sampleRecord sample.1 sample.2).bytes.length = 104 := rfl
    rw [List.map_cons, List.flatMap_cons, List.length_append, ih, hlength, List.length_cons]
    omega

theorem length_memoryRecords {samples : List (UInt8 × UInt8)} (h : samples.length < 39)
    (key : BufferKey) : ((memoryRecords samples key).flatMap Record.bytes).length < 4096 := by
  rw [memoryRecords]
  split_ifs
  · rw [length_sampleRecords]
    omega
  · simp

/-- A call that reads some memory samples and filters none of them out. -/
def memoryCall (samples : List (UInt8 × UInt8)) (h : samples.length < 39) :
    DecodedCall oneCpuSetup where
  interrupted := false
  acceptPIDFilter := fun _ => true
  buffers key := (readerOf (memoryRecords samples key)).hw
  records := memoryRecords samples
  rest_eq key _ := rest_readerOf (length_memoryRecords h key)
  consumed key _ := consumed_memoryRecords key

theorem accepted_memoryCall {samples : List (UInt8 × UInt8)} (h : samples.length < 39)
    (htimes : ∀ sample ∈ samples, sample.2 ≠ 0) :
    acceptedOver (.memSample, 0) [memoryCall samples h] =
      samples.map fun sample => plainSample sample.1 sample.2 := by
  have hdecoded : ((samples.map fun sample => sampleRecord sample.1 sample.2).filterMap
      fun rec => rec.sample ℚ .memSample) =
        samples.map fun sample => plainSample sample.1 sample.2 := by
    rw [List.filterMap_map, ← List.filterMap_eq_map]
    refine List.filterMap_congr fun sample hsample => ?_
    rw [Function.comp_apply, Function.comp_apply]
    exact sample_sampleRecord (htimes sample hsample)
  have hall : ∀ l : List Pebs, l.filter (fun _ => true) = l :=
    fun l => List.filter_eq_self.mpr (by simp)
  rw [acceptedOver, List.flatMap_singleton]
  change (((samples.map fun sample => sampleRecord sample.1 sample.2).filterMap
      fun rec => rec.sample ℚ .memSample).filter fun _ => true) = _
  rw [hdecoded, hall]

/-- A counter that moves between two readings. -/
theorem telescopes_readSamples_iff_moved :
    acceptedOver (.memSample, 0) [memoryCall [(5, 1), (7, 2)] (by decide)] =
        [plainSample 5 1, plainSample 7 2] ∧
      ∃ emitted,
        Settles (fun fuel => emittedOver fuel (.memSample, 0)
          [memoryCall [(5, 1), (7, 2)] (by decide)] (.start oneCpuSetup.newBuffers)) emitted ∧
        (AddsUp (plainSample 5 1) [plainSample 7 2] emitted ↔
          NothingLost Pebs.count Pebs.runningTime (plainSample 5 1) [plainSample 7 2]) := by
  have haccepted : acceptedOver (.memSample, 0) [memoryCall [(5, 1), (7, 2)] (by decide)] =
      [plainSample 5 1, plainSample 7 2] := accepted_memoryCall _ (by simp)
  exact ⟨haccepted, telescopes_readSamples_iff oneCpuSetup _ _ mem_cpus_oneCpuSetup haccepted
    (by unfold Increasing; decide) (by decide)⟩

/-- A counter that is read twice before it moves. -/
theorem not_addsUp_repeated :
    acceptedOver (.memSample, 0) [memoryCall [(5, 1), (5, 2), (7, 3)] (by decide)] =
        [plainSample 5 1, plainSample 5 2, plainSample 7 3] ∧
      Increasing Pebs.count Pebs.runningTime
        [plainSample 5 1, plainSample 5 2, plainSample 7 3] ∧
      Settles (fun fuel => emittedOver fuel (.memSample, 0)
        [memoryCall [(5, 1), (5, 2), (7, 3)] (by decide)] (.start oneCpuSetup.newBuffers)) [] ∧
      ¬ AddsUp (plainSample 5 1) [plainSample 5 2, plainSample 7 3] [] := by
  have haccepted : acceptedOver (.memSample, 0) [memoryCall [(5, 1), (5, 2), (7, 3)] (by decide)] =
      [plainSample 5 1, plainSample 5 2, plainSample 7 3] := accepted_memoryCall _ (by simp)
  refine ⟨haccepted, by unfold Increasing; decide, ?_, by unfold AddsUp; decide⟩
  have hpos : ∀ sample ∈ [plainSample 5 1, plainSample 5 2, plainSample 7 3],
      sample.timeRunning ≠ 0 := by decide
  have hstart : (Sampling.start oneCpuSetup.newBuffers).HasBaseline (.memSample, 0) none :=
    ⟨rfl, rfl⟩
  have hsettles : Settles _ (incrementsOf none _) :=
    settles_emittedOver (oneCpuSetup.mem_bufferKeys.mpr mem_cpus_oneCpuSetup) hstart
      (fun b hb => absurd hb (Option.not_mem_none b)) (haccepted ▸ hpos) rfl
  have hlost : incrementsOf none [plainSample 5 1, plainSample 5 2, plainSample 7 3] = [] := by
    decide
  rw [haccepted, hlost] at hsettles
  exact hsettles

end Thanos
