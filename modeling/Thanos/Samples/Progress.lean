import Thanos.Samples.Framing

/-!
# Progress in the sample buffer

Whatever is in the buffer, each iteration of `process_sample_buf` should take something off it.
The fields of a sample are read as far as they are there, what is left of a record is skipped,
and what is left is computed from the size in its header, modulo the word size.

* **Positions** (`toNat_afterReads`, `leaves_transfer`): where the reads and skips of a record
  lead.
* **One iteration** (`readRecord_progress_iff`): an iteration advances `data_tail` exactly under
  a condition on the header and the positions.
* **Termination** (`progresses_iff`): so does every iteration of a call if they all meet it, and
  then the call returns.
-/

namespace Thanos

namespace PerfBuffer

/-- Two buffers differ in `data_tail` at most. -/
structure SameRing (hw hw' : PerfBuffer) : Prop where
  data_eq : hw'.data = hw.data
  logSize_eq : hw'.logSize = hw.logSize
  dataHead_eq : hw'.dataHead = hw.dataHead

/-- The buffer after some reads of 8 bytes, as far as they are there. -/
def afterReads : ℕ → PerfBuffer → PerfBuffer
  | 0, hw => hw
  | n + 1, hw => afterReads n (perfReadBuffer64 0 hw).2

/-- A program makes `n` reads of 8 bytes, whatever they return. -/
def Reads {α : Type} (m : StateM PerfBuffer α) (n : ℕ) : Prop :=
  ∀ hw, (m hw).2 = afterReads n hw

variable {hw hw' hw'' : PerfBuffer} {sz : UInt64} {n n' : ℕ} {α β : Type}

theorem SameRing.refl : SameRing hw hw :=
  ⟨rfl, rfl, rfl⟩

theorem SameRing.trans (h : SameRing hw hw') (h' : SameRing hw' hw'') : SameRing hw hw'' :=
  ⟨h'.data_eq.trans h.data_eq, h'.logSize_eq.trans h.logSize_eq,
    h'.dataHead_eq.trans h.dataHead_eq⟩

theorem SameRing.eq (h : SameRing hw hw') (htail : hw'.dataTail = hw.dataTail) : hw' = hw := by
  obtain ⟨hdata, hlog, hhead⟩ := h
  cases hw
  cases hw'
  subst hdata hlog hhead htail
  rfl

theorem sameRing_perfReadBuffer {bytes : List UInt8}
    (h : hw.perfReadBuffer sz = some (bytes, hw')) : SameRing hw hw' := by
  unfold perfReadBuffer at h
  split_ifs at h
  obtain ⟨-, rfl⟩ := Prod.mk.inj (Option.some.inj h)
  exact ⟨rfl, rfl, rfl⟩

theorem sameRing_perfSkipBuffer : SameRing hw (hw.perfSkipBuffer sz) := by
  unfold perfSkipBuffer
  split_ifs <;> exact ⟨rfl, rfl, rfl⟩

/-- A read of 8 bytes fails, or advances by 8 bytes. -/
theorem perfReadBuffer_cases (hw : PerfBuffer) :
    (hw.rest.length < 8 ∧ hw.perfReadBuffer 8 = none) ∨
      ∃ hw', 8 ≤ hw.rest.length ∧ hw.perfReadBuffer 8 = some (hw.rest.take 8, hw') ∧
        Advances hw 8 hw' := by
  obtain hlt | hle := lt_or_ge hw.rest.length 8
  · exact .inl ⟨hlt, perfReadBuffer_eq_none hlt⟩
  · obtain ⟨hw', hread, hadv⟩ : ∃ hw', hw.perfReadBuffer 8 = some (hw.rest.take 8, hw') ∧
        Advances hw 8 hw' := perfReadBuffer_eq hle (by decide)
    exact .inr ⟨hw', hle, hread, hadv⟩

theorem perfReadBuffer64_snd (value value' : UInt64) :
    (perfReadBuffer64 value hw).2 = (perfReadBuffer64 value' hw).2 := by
  unfold perfReadBuffer64
  cases hw.perfReadBuffer 8 <;> rfl

theorem afterReads_add : afterReads (n + n') hw = afterReads n' (afterReads n hw) := by
  induction n generalizing hw with
  | zero => rw [Nat.zero_add]; rfl
  | succ n ih => rw [Nat.succ_add]; exact ih

theorem length_rest_afterReads :
    (afterReads n hw).rest.length = hw.rest.length - 8 * min n (hw.rest.length / 8) := by
  induction n generalizing hw with
  | zero => simp [afterReads]
  | succ n ih =>
    obtain ⟨hlt, hread⟩ | ⟨hw', hle, hread, hadv⟩ := perfReadBuffer_cases hw
    · have hstay : (perfReadBuffer64 0 hw).2 = hw := by rw [perfReadBuffer64, hread]
      rw [afterReads, hstay, ih]
      omega
    · have hmove : (perfReadBuffer64 0 hw).2 = hw' := by rw [perfReadBuffer64, hread]
      rw [afterReads, hmove, ih, hadv.rest_eq, List.length_drop]
      omega

theorem sameRing_afterReads : SameRing hw (afterReads n hw) := by
  induction n generalizing hw with
  | zero => exact .refl
  | succ n ih =>
    refine SameRing.trans ?_ ih
    unfold perfReadBuffer64
    rcases hread : hw.perfReadBuffer 8 with _ | ⟨bytes, hw'⟩
    · exact .refl
    · exact sameRing_perfReadBuffer hread

theorem Reads.bind {m : StateM PerfBuffer α} {k : α → StateM PerfBuffer β} (h : Reads m n)
    (h' : ∀ a, Reads (k a) n') : Reads (m >>= k) (n + n') := by
  intro hw
  rw [afterReads_add, ← h hw]
  exact h' (m hw).1 (m hw).2

theorem Reads.pure (a : α) : Reads (Pure.pure a) 0 :=
  fun _ => rfl

theorem bind_apply {m : StateM PerfBuffer α} {k : α → StateM PerfBuffer β} :
    (m >>= k) hw = k (m hw).1 (m hw).2 :=
  rfl

theorem reads_perfReadBuffer64 (value : UInt64) : Reads (perfReadBuffer64 value) 1 :=
  fun _ => perfReadBuffer64_snd value 0

theorem reads_perfReadBufferPair (value : ℕ × ℕ) : Reads (perfReadBufferPair value) 1 := by
  intro hw
  change (perfReadBufferPair value hw).2 = (perfReadBuffer64 0 hw).2
  unfold perfReadBufferPair perfReadBuffer64
  cases hw.perfReadBuffer 8 <;> rfl

end PerfBuffer

open PerfBuffer

/-! ### Where a sample is left -/

/-- The decoder reads `n` words and skips what is left of the record then. -/
def Leaves (m : StateM PerfBuffer (ℤ × Pebs)) (n : ℕ) (left : UInt64) : Prop :=
  ∀ hw, ∃ sample, m hw =
    if left = 0 then ((0, sample), afterReads n hw)
    else ((1, sample), (afterReads n hw).perfSkipBuffer left)

/-- The decoder reads `n` words and gives up. -/
def GivesUp (m : StateM PerfBuffer (ℤ × Pebs)) (n : ℕ) : Prop :=
  ∀ hw, ∃ sample, m hw = ((-1, sample), afterReads n hw)

section Decoder

variable (R : Type) [RealT R] {sz left nr nrLeft : UInt64} {sample : Pebs} {n n' : ℕ} {α : Type}

theorem PerfBuffer.Reads.leaves {m : StateM PerfBuffer α}
    {k : α → StateM PerfBuffer (ℤ × Pebs)} (h : Reads m n) (h' : ∀ a, Leaves (k a) n' left) :
    Leaves (m >>= k) (n + n') left := by
  intro hw
  obtain ⟨sample, hk⟩ := h' (m hw).1 (m hw).2
  rw [afterReads_add, ← h hw]
  exact ⟨sample, hk⟩

theorem PerfBuffer.Reads.givesUp {m : StateM PerfBuffer α}
    {k : α → StateM PerfBuffer (ℤ × Pebs)} (h : Reads m n) (h' : ∀ a, GivesUp (k a) n') :
    GivesUp (m >>= k) (n + n') := by
  intro hw
  obtain ⟨sample, hk⟩ := h' (m hw).1 (m hw).2
  rw [afterReads_add, ← h hw]
  exact ⟨sample, hk⟩

theorem givesUp_pure : GivesUp (pure (-1, sample)) 0 :=
  fun _ => ⟨sample, rfl⟩

theorem reads_transferIdentity (sample : Pebs) : Reads (transferIdentity sample) 7 := by
  have h := (reads_perfReadBuffer64 sample.iip).bind fun iip =>
    (reads_perfReadBufferPair (0, 0)).bind fun pid =>
    (reads_perfReadBuffer64 sample.time).bind fun time =>
    (reads_perfReadBuffer64 sample.sampleAddr).bind fun sampleAddr =>
    (reads_perfReadBuffer64 0).bind fun streamId =>
    (reads_perfReadBufferPair (0, 0)).bind fun cpu =>
    (reads_perfReadBuffer64 streamId).bind fun _ =>
    Reads.pure { sample with
      iip := iip, pid := pid.1, tid := pid.2, time := time, sampleAddr := sampleAddr
      cpu := cpu.1 }
  exact h

/-- What is left after the last fields. -/
theorem leaves_skip :
    Leaves (if left ≠ 0 then do
        modify fun hw => hw.perfSkipBuffer left
        pure (1, sample)
      else pure (0, sample)) 0 left := by
  intro hw
  refine ⟨sample, ?_⟩
  by_cases h : left = 0
  · rw [if_neg (not_not_intro h), if_pos h]
    rfl
  · rw [if_pos h, if_neg h]
    rfl

theorem leaves_transferSource : Leaves (transferSource sz sample) 2 (sz - 16) := by
  have h := (reads_perfReadBuffer64 sample.weight).leaves fun weight =>
    (reads_perfReadBuffer64 sample.dsrc).leaves fun dsrc =>
    @leaves_skip (sz - 16) { sample with weight := weight, dsrc := dsrc }
  exact h

theorem leaves_transferSingle : Leaves (transferSingle R sz sample) 5 (sz - 40) := by
  have hleft : sz - 24 - 16 = sz - 40 := by grind
  have h := (reads_perfReadBuffer64 sample.value).leaves fun value =>
    (reads_perfReadBuffer64 sample.timeEnabled).leaves fun timeEnabled =>
    (reads_perfReadBuffer64 sample.timeRunning).leaves fun timeRunning =>
    @leaves_transferSource (sz - 24) { sample with
      value := perfScale R value timeEnabled timeRunning
      timeEnabled := timeEnabled
      timeRunning := timeRunning }
  rw [hleft] at h
  exact h

theorem leaves_transferCounter (hnr : ¬ 3 < nr) :
    Leaves (transferCounter R sz nr sample) 6 (sz - 48) := by
  have hleft : sz - 32 - 16 = sz - 48 := by grind
  have h := (reads_perfReadBuffer64 sample.timeEnabled).leaves fun timeEnabled =>
    (reads_perfReadBuffer64 sample.timeRunning).leaves fun timeRunning =>
    (reads_perfReadBuffer64 0).leaves fun value =>
    (reads_perfReadBuffer64 (-1)).leaves fun _ =>
    @leaves_transferSource (sz - 32) { sample with
      timeEnabled := timeEnabled
      timeRunning := timeRunning
      value := perfScale R value timeEnabled timeRunning }
  rw [hleft] at h
  unfold transferCounter
  simp only [if_neg hnr]
  exact h

theorem givesUp_transferCounter (hnr : 3 < nr) :
    GivesUp (transferCounter R sz nr sample) 4 := by
  have h := (reads_perfReadBuffer64 sample.timeEnabled).givesUp fun timeEnabled =>
    (reads_perfReadBuffer64 sample.timeRunning).givesUp fun timeRunning =>
    (reads_perfReadBuffer64 0).givesUp fun _ =>
    (reads_perfReadBuffer64 (-1)).givesUp fun _ =>
    @givesUp_pure { sample with timeEnabled := timeEnabled, timeRunning := timeRunning }
  unfold transferCounter
  simp only [if_pos hnr]
  exact h

/-- The number of counters in the payload of a sample, or what is in its variable if that is too
short. -/
def countersOf (nrLeft : UInt64) (payload : List UInt8) : UInt64 :=
  if 64 ≤ payload.length then word 7 payload else nrLeft

/-- The number of words in the payload of a sample with one counter. -/
def sampleWords (formatGroup : Bool) : ℕ :=
  if formatGroup then 14 else 12

theorem perfReadBuffer64_afterReads {hw : PerfBuffer} :
    (perfReadBuffer64 nrLeft (afterReads 7 hw)).1 = countersOf nrLeft hw.rest := by
  have hlength := @length_rest_afterReads hw 7
  unfold countersOf perfReadBuffer64
  split_ifs with h
  · obtain ⟨hw', hparse, hadv⟩ := parses_transferIdentity (.new .memSample) hw (by omega)
    have hrest : (afterReads 7 hw).rest = hw.rest.drop (8 * 7) := by
      rw [← reads_transferIdentity (.new .memSample) hw, hparse, hadv.rest_eq]
    obtain ⟨hlt, -⟩ | ⟨hw'', -, hread, -⟩ := perfReadBuffer_cases (afterReads 7 hw)
    · omega
    · rw [hread, hrest]
      simp [word]
  · obtain ⟨-, hread⟩ | ⟨hw'', hle, -, -⟩ := perfReadBuffer_cases (afterReads 7 hw)
    · rw [hread]
    · omega

/-- With the group format the number of counters is read after seven words. -/
theorem transfer_group_eq {hw : PerfBuffer} {ehdr : PerfEventHeader} :
    transferDataFromBufferToStructure R true nrLeft ehdr sample hw =
      transferCounter R (ehdr.size.toUInt64 - 72) (countersOf nrLeft hw.rest)
        (transferIdentity sample hw).1 (afterReads 8 hw) := by
  have hsz : ehdr.size.toUInt64 - 8 - 56 - 8 = ehdr.size.toUInt64 - 72 := by grind
  have hwords : (perfReadBuffer64 nrLeft (afterReads 7 hw)).2 = afterReads 8 hw := by
    rw [reads_perfReadBuffer64, ← afterReads_add]
  have hprogram : transferDataFromBufferToStructure R true nrLeft ehdr sample =
      transferIdentity sample >>= fun sample =>
        perfReadBuffer64 nrLeft >>= fun nr =>
          transferCounter R (ehdr.size.toUInt64 - 8 - 56 - 8) nr sample := by
    simp only [transferDataFromBufferToStructure, transferGroup, if_true]
  rw [hprogram, bind_apply, bind_apply, reads_transferIdentity, perfReadBuffer64_afterReads,
    hwords, hsz]

/-- **Positions.** The fields of a sample are read and what is left is skipped. -/
theorem leaves_transfer {hw : PerfBuffer} (formatGroup : Bool) (nrLeft : UInt64)
    (ehdr : PerfEventHeader) (sample : Pebs)
    (hnr : formatGroup = true → ¬ 3 < countersOf nrLeft hw.rest) :
    ∃ sample', transferDataFromBufferToStructure R formatGroup nrLeft ehdr sample hw =
      if ehdr.size.toUInt64 - UInt64.ofNat (sampleRecordSize formatGroup) = 0 then
        ((0, sample'), afterReads (sampleWords formatGroup) hw)
      else ((1, sample'), (afterReads (sampleWords formatGroup) hw).perfSkipBuffer
        (ehdr.size.toUInt64 - UInt64.ofNat (sampleRecordSize formatGroup))) := by
  cases formatGroup with
  | false =>
    have hleft : ehdr.size.toUInt64 - 8 - 56 - 40 = ehdr.size.toUInt64 - UInt64.ofNat 104 := by
      change _ = ehdr.size.toUInt64 - 104
      grind
    have h := (reads_transferIdentity sample).leaves fun sample' =>
      @leaves_transferSingle R _ (ehdr.size.toUInt64 - 8 - 56) sample'
    rw [hleft] at h
    exact h hw
  | true =>
    have hleft : ehdr.size.toUInt64 - 72 - 48 = ehdr.size.toUInt64 - UInt64.ofNat 120 := by
      change _ = ehdr.size.toUInt64 - 120
      grind
    have hwords : afterReads (sampleWords true) hw = afterReads 6 (afterReads 8 hw) :=
      @afterReads_add hw 8 6
    have h := @leaves_transferCounter R _ (ehdr.size.toUInt64 - 72)
      (countersOf nrLeft hw.rest) (transferIdentity sample hw).1 (hnr rfl) (afterReads 8 hw)
    rw [hleft] at h
    rw [transfer_group_eq, hwords]
    exact h

/-- A sample with too many counters is given up after the first. -/
theorem givesUp_transfer {hw : PerfBuffer} (nrLeft : UInt64) (ehdr : PerfEventHeader)
    (sample : Pebs) (hnr : 3 < countersOf nrLeft hw.rest) :
    ∃ sample', transferDataFromBufferToStructure R true nrLeft ehdr sample hw =
      ((-1, sample'), afterReads 12 hw) := by
  have hwords : afterReads 12 hw = afterReads 4 (afterReads 8 hw) := @afterReads_add hw 8 4
  rw [transfer_group_eq, hwords]
  exact givesUp_transferCounter R hnr (afterReads 8 hw)

end Decoder

/-! ### Positions as numbers -/

/-- Where a skip leads to. -/
def skipTo (head pos sz : ℕ) : ℕ :=
  min head ((pos + sz) % 2 ^ 64)

/-- How much is skipped of a record of some size. -/
def skipSize (mapSize size : ℕ) : ℕ :=
  if size = 0 then mapSize else (size + 2 ^ 64 - 8) % 2 ^ 64

/-- A record of which the rest is skipped from `pos` on is left behind. -/
def SkipMovesOn (mapSize tail pos size : ℕ) : Prop :=
  if size = 0 then tail < (pos + mapSize) % 2 ^ 64 else pos + size < 2 ^ 64 + 8

/-- A sample is left behind of which the fields that are there end at `pos`. -/
def SampleMovesOn (recordSize mapSize tail head pos size : ℕ) : Prop :=
  if size = recordSize then True
  else if recordSize < size then min head (pos + size - recordSize) + size < 2 ^ 64 + 8
  else if size = 0 then
    tail < ((if pos < recordSize then head else pos - recordSize) + mapSize) % 2 ^ 64
  else
    pos + size < recordSize ∨ pos + 2 * size < recordSize + 8 ∨
      (tail + recordSize + 8 < pos + 2 * size ∧ pos + 2 * size < 2 ^ 64 + recordSize + 8)

section Positions

variable {mapSize tail head pos size recordSize words : ℕ}

/-- From some position on, the rest of a record that is longer than its header. -/
theorem lt_skipTo_sub_iff {start : ℕ} (hstart : tail + 8 ≤ start)
    (hclose : start ≤ tail + 2 ^ 17) (hend : start ≤ head) (hhead : head < 2 ^ 64)
    (hlong : 8 ≤ size) (hsize : size < 2 ^ 16) :
    tail < skipTo head start (size - 8) ↔ start + size < 2 ^ 64 + 8 := by
  rw [skipTo]
  obtain hlt | hge := lt_or_ge (start + (size - 8)) (2 ^ 64)
  · rw [Nat.mod_eq_of_lt hlt]
    omega
  · have hmod : (start + (size - 8)) % 2 ^ 64 = start + (size - 8) - 2 ^ 64 := by omega
    rw [hmod]
    omega

theorem skipTo_le {start sz : ℕ} : skipTo head start sz ≤ start + sz :=
  (min_le_right _ _).trans (Nat.mod_le _ _)

theorem lt_skipTo_iff (htail : tail + 8 ≤ pos) (hclose : pos ≤ tail + 120) (hpos : pos ≤ head)
    (hhead : head < 2 ^ 64) (hsize : size < 2 ^ 16) :
    tail < skipTo head pos (skipSize mapSize size) ↔ SkipMovesOn mapSize tail pos size := by
  unfold SkipMovesOn skipSize
  split_ifs with hzero
  · rw [skipTo]
    omega
  · obtain hshort | hlong := lt_or_ge size 8
    · have hwrapped : (size + 2 ^ 64 - 8) % 2 ^ 64 = size + 2 ^ 64 - 8 := by omega
      have hmod : (pos + (size + 2 ^ 64 - 8)) % 2 ^ 64 = pos + size - 8 := by omega
      rw [skipTo, hwrapped, hmod]
      omega
    · have hskip : (size + 2 ^ 64 - 8) % 2 ^ 64 = size - 8 := by omega
      rw [hskip]
      exact lt_skipTo_sub_iff htail (by omega) hpos hhead hlong hsize

/-- What is left of a record in excess of the fields, or how far the fields exceed it. -/
theorem skipTo_leftover (hpos : pos ≤ head) (hhead : head < 2 ^ 64) (hsize : size < 2 ^ 16)
    (hrecord : recordSize < 2 ^ 16) (hle : pos + size ≤ head + recordSize)
    (hnear : pos + size < recordSize → head < 2 ^ 63) :
    skipTo head pos ((size + 2 ^ 64 - recordSize) % 2 ^ 64) =
      if pos + size < recordSize then head else pos + size - recordSize := by
  unfold skipTo
  split_ifs with hunder
  · have hhead' := hnear hunder
    have hwrapped : (size + 2 ^ 64 - recordSize) % 2 ^ 64 = size + 2 ^ 64 - recordSize := by omega
    rw [hwrapped]
    omega
  · have hmod : (pos + (size + 2 ^ 64 - recordSize) % 2 ^ 64) % 2 ^ 64 =
        pos + size - recordSize := by omega
    rw [hmod]
    omega

theorem lt_skipTo_skipTo_iff (hwords : words ≤ 14) (htail : tail + 8 ≤ head)
    (hhead : head < 2 ^ 64) (hsize : size < 2 ^ 16) (hne : size ≠ 8 + 8 * words)
    (hpos : pos = tail + 8 + 8 * min words ((head - tail - 8) / 8)) :
    tail < skipTo head (skipTo head pos ((size + 2 ^ 64 - (8 + 8 * words)) % 2 ^ 64))
        (skipSize mapSize size) ↔
      SampleMovesOn (8 + 8 * words) mapSize tail head pos size := by
  have hle : pos ≤ head := by omega
  have hge : tail + 8 ≤ pos := by omega
  have hclose : pos ≤ tail + 8 + 8 * words := by omega
  -- if the fields start before the first position, the buffer is nearly empty
  have hleftover : pos + size ≤ head + (8 + 8 * words) → _ := fun h =>
    skipTo_leftover hle hhead hsize (by omega) h (by omega)
  unfold SampleMovesOn
  rw [if_neg hne]
  split_ifs with hlong hzero hshort
  · have hexcess : (size + 2 ^ 64 - (8 + 8 * words)) % 2 ^ 64 = size - (8 + 8 * words) := by omega
    have hskip : (size + 2 ^ 64 - 8) % 2 ^ 64 = size - 8 := by omega
    rw [hexcess, skipSize, if_neg (by omega), hskip]
    obtain hend | hend := lt_or_ge (pos + (size - (8 + 8 * words))) (2 ^ 64)
    · have hstart : skipTo head pos (size - (8 + 8 * words)) =
          min head (pos + size - (8 + 8 * words)) := by
        rw [skipTo, Nat.mod_eq_of_lt hend, Nat.add_sub_assoc hlong.le]
      rw [hstart]
      have hnear : min head (pos + size - (8 + 8 * words)) ≤ pos + size - (8 + 8 * words) :=
        min_le_right _ _
      exact lt_skipTo_sub_iff (le_min htail (by omega)) (by omega) (min_le_left _ _) hhead
        (by omega) hsize
    · -- past the last position
      have hmod : (pos + (size - (8 + 8 * words))) % 2 ^ 64 =
          pos + (size - (8 + 8 * words)) - 2 ^ 64 := by omega
      have hstart : skipTo head pos (size - (8 + 8 * words)) ≤
          pos + (size - (8 + 8 * words)) - 2 ^ 64 := (min_le_right _ _).trans hmod.le
      have hend' : head ≤ pos + size - (8 + 8 * words) := by omega
      have hsmall := @skipTo_le head (skipTo head pos (size - (8 + 8 * words))) (size - 8)
      rw [min_eq_left hend']
      refine iff_of_false ?_ ?_
      · omega
      · omega
  · rw [hleftover (by omega), if_pos (by omega), skipSize, if_pos hzero, skipTo]
    omega
  · rw [hleftover (by omega), if_neg (by omega), skipSize, if_pos hzero, skipTo]
    omega
  · rw [hleftover (by omega), skipSize, if_neg hzero]
    split_ifs with hunder
    · rw [skipTo]
      omega
    · rw [skipTo]
      omega

/-- With all the fields in the buffer, and away from the first and the last positions, a sample
is left behind unless it claims to have from one to four bytes. -/
theorem sampleMovesOn_iff_of_complete (htail : 8 ≤ tail) (hrecord : 4 < recordSize)
    (hmap : 0 < mapSize) (hpos : pos = tail + recordSize) (hle : pos ≤ head)
    (hsize : size < 2 ^ 16) (hroom : head + mapSize + 2 ^ 17 ≤ 2 ^ 64) :
    SampleMovesOn recordSize mapSize tail head pos size ↔ size = 0 ∨ 4 < size := by
  subst hpos
  unfold SampleMovesOn
  split_ifs with heq hlong hzero hshort
  · rw [true_iff]
    omega
  · omega
  · omega
  · omega
  · have hfields : ¬ tail + recordSize + size < recordSize := by omega
    rw [or_iff_right hfields, or_iff_right hzero]
    omega

end Positions

namespace PerfBuffer

variable {hw : PerfBuffer} {sz : UInt64} {n : ℕ}

theorem length_rest_eq : hw.rest.length = hw.dataHead.toNat - hw.dataTail.toNat := by
  rw [length_rest, availSz, UInt64.toNat_sub_of_le _ _ hw.tail_le_head]

theorem toNat_perfSkipBuffer :
    (hw.perfSkipBuffer sz).dataTail.toNat =
      skipTo hw.dataHead.toNat hw.dataTail.toNat sz.toNat := by
  unfold perfSkipBuffer skipTo
  rw [← UInt64.toNat_add]
  split_ifs with h
  · have hend : hw.dataTail + (hw.dataHead - hw.dataTail) = hw.dataHead := by grind
    rw [min_eq_left (UInt64.le_iff_toNat_le.mp h.le)]
    exact congrArg UInt64.toNat hend
  · rw [min_eq_right (UInt64.le_iff_toNat_le.mp (not_lt.mp h))]

theorem toNat_afterReads :
    (afterReads n hw).dataTail.toNat =
      hw.dataTail.toNat + 8 * min n (hw.rest.length / 8) := by
  have hlength := @length_rest_afterReads hw n
  have htail := UInt64.le_iff_toNat_le.mp hw.tail_le_head
  have htail' := UInt64.le_iff_toNat_le.mp (afterReads n hw).tail_le_head
  rw [sameRing_afterReads.dataHead_eq] at htail'
  rw [length_rest_eq, sameRing_afterReads.dataHead_eq, length_rest_eq] at hlength
  rw [length_rest_eq]
  omega

end PerfBuffer

/-! ### One iteration -/

section Iteration

variable {R : Type} (group : SampleGroup R)

theorem toNat_toSkip {ehdr : PerfEventHeader} :
    (toSkip group ehdr).toNat = skipSize group.mapSize.toNat ehdr.size.toNat := by
  have hzero : ehdr.size = 0 ↔ ehdr.size.toNat = 0 := UInt16.toNat_inj.symm
  unfold toSkip skipSize
  by_cases h : ehdr.size = 0
  · rw [if_pos h, if_pos (hzero.mp h)]
  · rw [if_neg h, if_neg (mt hzero.mpr h), UInt64.toNat_sub, UInt16.toNat_toUInt64]
    congr 1
    change 2 ^ 64 - 8 + _ = _
    omega

/-- The state after a header has been read. -/
def SampleReader.afterHeader (st : SampleReader) : SampleReader :=
  { st with hw := afterReads 1 st.hw }

/-- The next iteration starts further on. A header that is not there ends the loop. -/
def MovesOn (st : SampleReader) : Prop :=
  let ehdr := PerfEventHeader.ofBytes st.hw.rest
  let payload := st.hw.rest.drop 8
  let tail := st.hw.dataTail.toNat
  let fieldsEnd words := tail + 8 + 8 * min words (payload.length / 8)
  let size := ehdr.size.toNat
  8 ≤ st.hw.rest.length → match ehdr.kind with
    | .sample =>
      if group.formatGroup = true ∧
          3 < countersOf (group.nrLeft st.afterHeader) payload then
        SkipMovesOn group.mapSize.toNat tail (fieldsEnd 12) size
      else
        SampleMovesOn (sampleRecordSize group.formatGroup) group.mapSize.toNat tail
          st.hw.dataHead.toNat (fieldsEnd (sampleWords group.formatGroup)) size
    | .unknown => SkipMovesOn group.mapSize.toNat tail (tail + 8) size
    | _ => True

variable [RealT R] {group} {st u v : SampleReader} {ehdr : PerfEventHeader}

/-- Where a sample is left, by the code that the decoder returns. -/
theorem handle_sample_hw (hkind : ehdr.kind = .sample) :
    (st.handle group ehdr).hw =
      if group.formatGroup = true ∧ 3 < countersOf (group.nrLeft st) st.hw.rest then
        (afterReads 12 st.hw).perfSkipBuffer (toSkip group ehdr)
      else if ehdr.size.toUInt64 - UInt64.ofNat (sampleRecordSize group.formatGroup) = 0 then
        afterReads (sampleWords group.formatGroup) st.hw
      else
        ((afterReads (sampleWords group.formatGroup) st.hw).perfSkipBuffer
          (ehdr.size.toUInt64 - UInt64.ofNat (sampleRecordSize group.formatGroup))).perfSkipBuffer
          (toSkip group ehdr) := by
  simp only [SampleReader.handle, hkind]
  split_ifs with hmany hleft
  · obtain ⟨sample, htransfer⟩ :=
      givesUp_transfer R (group.nrLeft st) ehdr (.new group.sampleType) hmany.2
    rw [hmany.1, htransfer]
    rfl
  · obtain ⟨sample, htransfer⟩ := leaves_transfer R group.formatGroup (group.nrLeft st) ehdr
      (.new group.sampleType) fun hgroup hnr => hmany ⟨hgroup, hnr⟩
    rw [htransfer, if_pos hleft]
    exact addSample_hw sample
  · obtain ⟨sample, htransfer⟩ := leaves_transfer R group.formatGroup (group.nrLeft st) ehdr
      (.new group.sampleType) fun hgroup hnr => hmany ⟨hgroup, hnr⟩
    rw [htransfer, if_neg hleft]
    rfl

theorem sameRing_handle : SameRing st.hw (st.handle group ehdr).hw := by
  cases hkind : ehdr.kind with
  | sample =>
    rw [handle_sample_hw hkind]
    split_ifs
    · exact sameRing_afterReads.trans sameRing_perfSkipBuffer
    · exact sameRing_afterReads
    · exact (sameRing_afterReads.trans sameRing_perfSkipBuffer).trans sameRing_perfSkipBuffer
  | lost =>
    simp only [SampleReader.handle, hkind]
    rcases hread : st.hw.perfReadBuffer 16 with _ | ⟨bytes, hw⟩
    · exact .refl
    · exact sameRing_perfReadBuffer hread
  | unknown =>
    simp only [SampleReader.handle, hkind]
    exact sameRing_perfSkipBuffer
  | exit =>
    simp only [SampleReader.handle, hkind]
    exact .refl
  | throttle =>
    simp only [SampleReader.handle, hkind]
    exact .refl
  | unthrottle =>
    simp only [SampleReader.handle, hkind]
    exact .refl

theorem advances_afterReads_one {hw : PerfBuffer} (h : 8 ≤ hw.rest.length) :
    Advances hw 8 (afterReads 1 hw) := by
  obtain ⟨hlt, -⟩ | ⟨hw', -, hread, hadv⟩ := perfReadBuffer_cases hw
  · omega
  · rw [afterReads, perfReadBuffer64, hread]
    exact hadv

/-- An iteration that is not the last one reads a header. -/
theorem continues_iff :
    Continues (readRecord group) u v ↔ 8 ≤ u.hw.rest.length ∧
      v = u.afterHeader.handle group (.ofBytes u.hw.rest) := by
  obtain ⟨hlt, hread⟩ | ⟨hw, hle, hread, -⟩ := perfReadBuffer_cases u.hw
  · rw [Continues, readRecord, hread]
    simp [hlt]
  · have hwords : afterReads 1 u.hw = hw := by
      rw [afterReads, perfReadBuffer64, hread]
      rfl
    rw [Continues, readRecord, hread, SampleReader.afterHeader, hwords,
      ← PerfEventHeader.ofBytes_take]
    simp [hle, eq_comm]

theorem toNat_leftover {size : UInt16} {n : ℕ} (hn : n < 2 ^ 16) :
    (size.toUInt64 - UInt64.ofNat n).toNat = (size.toNat + 2 ^ 64 - n) % 2 ^ 64 := by
  have hmod : n % 2 ^ 64 = n := Nat.mod_eq_of_lt (by omega)
  rw [UInt64.toNat_sub, UInt16.toNat_toUInt64, UInt64.toNat_ofNat', hmod]
  congr 1
  omega

theorem leftover_eq_zero_iff {size : UInt16} {n : ℕ} (hn : n < 2 ^ 16) :
    size.toUInt64 - UInt64.ofNat n = 0 ↔ size.toNat = n := by
  have hsize := size.toNat_lt
  rw [← UInt64.toNat_inj, toNat_leftover hn, UInt64.toNat_zero]
  omega

theorem sampleRecordSize_eq (formatGroup : Bool) :
    sampleRecordSize formatGroup = 8 + 8 * sampleWords formatGroup := by
  cases formatGroup <;> rfl

/-- A sample is left behind. -/
theorem lt_handle_sample_iff (h : 8 ≤ u.hw.rest.length) (hkind : ehdr.kind = .sample) :
    u.hw.dataTail.toNat < (u.afterHeader.handle group ehdr).hw.dataTail.toNat ↔
      if group.formatGroup = true ∧
          3 < countersOf (group.nrLeft u.afterHeader) (u.hw.rest.drop 8) then
        SkipMovesOn group.mapSize.toNat u.hw.dataTail.toNat
          (u.hw.dataTail.toNat + 8 + 8 * min 12 ((u.hw.rest.drop 8).length / 8)) ehdr.size.toNat
      else
        SampleMovesOn (sampleRecordSize group.formatGroup) group.mapSize.toNat
          u.hw.dataTail.toNat u.hw.dataHead.toNat
          (u.hw.dataTail.toNat + 8 + 8 * min (sampleWords group.formatGroup)
            ((u.hw.rest.drop 8).length / 8)) ehdr.size.toNat := by
  have hadv : Advances u.hw 8 u.afterHeader.hw := advances_afterReads_one h
  have hhead := u.hw.dataHead.toNat_lt
  have hsize := ehdr.size.toNat_lt
  have hlength := @length_rest_eq u.hw
  have hpos : ∀ n, (afterReads n u.afterHeader.hw).dataTail.toNat =
      u.hw.dataTail.toNat + 8 + 8 * min n ((u.hw.rest.drop 8).length / 8) := by
    intro n
    rw [toNat_afterReads, hadv.dataTail_eq, hadv.rest_eq]
  have hend : ∀ n, (afterReads n u.afterHeader.hw).dataHead = u.hw.dataHead := fun n =>
    sameRing_afterReads.dataHead_eq.trans hadv.dataHead_eq
  have hwords : sampleWords group.formatGroup ≤ 14 := by
    cases group.formatGroup <;> decide
  have hrecord : sampleRecordSize group.formatGroup < 2 ^ 16 := by
    cases group.formatGroup <;> decide
  rw [handle_sample_hw hkind, hadv.rest_eq]
  split_ifs with hmany hleft
  · rw [toNat_perfSkipBuffer, hend, hpos, toNat_toSkip]
    rw [List.length_drop]
    exact lt_skipTo_iff (by omega) (by omega) (by omega) hhead hsize
  · rw [leftover_eq_zero_iff hrecord] at hleft
    rw [SampleMovesOn, if_pos hleft, hpos, iff_true]
    omega
  · rw [leftover_eq_zero_iff hrecord] at hleft
    rw [toNat_perfSkipBuffer, sameRing_perfSkipBuffer.dataHead_eq, toNat_perfSkipBuffer, hend,
      hpos, toNat_toSkip, toNat_leftover hrecord]
    rw [sampleRecordSize_eq] at hleft ⊢
    refine lt_skipTo_skipTo_iff hwords (by omega) hhead hsize hleft ?_
    rw [List.length_drop, hlength]

/-- A record of lost samples is left behind, even if its payload is not there. -/
theorem le_handle_lost (st : SampleReader) (hkind : ehdr.kind = .lost) :
    st.hw.dataTail.toNat ≤ (st.handle group ehdr).hw.dataTail.toNat := by
  simp only [SampleReader.handle, hkind]
  rcases hread : st.hw.perfReadBuffer 16 with _ | ⟨bytes, hw⟩
  · exact le_rfl
  · have hlength : (16 : UInt64).toNat ≤ st.hw.rest.length := by
      by_contra hlt
      rw [perfReadBuffer_eq_none (not_le.mp hlt)] at hread
      exact absurd hread (by simp)
    obtain ⟨hw', hread', hadv⟩ := perfReadBuffer_eq hlength (by decide)
    obtain ⟨-, rfl⟩ := Prod.mk.inj (Option.some.inj (hread.symm.trans hread'))
    exact hadv.dataTail_eq ▸ Nat.le_add_right _ _

/-- **One iteration.** -/
theorem readRecord_progress_iff (h : Continues (readRecord group) u v) :
    u.hw.dataTail < v.hw.dataTail ↔ MovesOn group u := by
  obtain ⟨hlength, rfl⟩ := continues_iff.mp h
  have hadv : Advances u.hw 8 u.afterHeader.hw := advances_afterReads_one hlength
  have htail : u.hw.dataTail.toNat < u.afterHeader.hw.dataTail.toNat := by
    rw [hadv.dataTail_eq]
    omega
  rw [UInt64.lt_iff_toNat_lt]
  simp only [MovesOn, hlength, forall_const]
  cases hkind : (PerfEventHeader.ofBytes u.hw.rest).kind with
  | sample => exact lt_handle_sample_iff hlength hkind
  | lost => exact iff_of_true (htail.trans_le (le_handle_lost u.afterHeader hkind)) trivial
  | unknown =>
    have hhead := u.hw.dataHead.toNat_lt
    have hsize := (PerfEventHeader.ofBytes u.hw.rest).size.toNat_lt
    have hrest := @length_rest_eq u.hw
    simp only [SampleReader.handle, hkind]
    rw [toNat_perfSkipBuffer, hadv.dataHead_eq, hadv.dataTail_eq, toNat_toSkip]
    exact lt_skipTo_iff (by omega) (by omega) (by omega) hhead hsize
  | exit =>
    simp only [SampleReader.handle, hkind]
    exact iff_of_true htail trivial
  | throttle =>
    simp only [SampleReader.handle, hkind]
    exact iff_of_true htail trivial
  | unthrottle =>
    simp only [SampleReader.handle, hkind]
    exact iff_of_true htail trivial

/-- `data_head` is fixed. -/
theorem dataHead_of_reaches (h : Reaches (readRecord group) st u) :
    u.hw.dataHead = st.hw.dataHead := by
  refine h.invariant (I := fun u => u.hw.dataHead = st.hw.dataHead) rfl fun t v ht htv => ?_
  obtain ⟨-, rfl⟩ := continues_iff.mp htv
  exact sameRing_handle.dataHead_eq.trans (sameRing_afterReads.dataHead_eq.trans ht)

variable (group)

/-- `process_sample_buf` returns, and until then each iteration advances `data_tail`, up to
`data_head` at most. -/
def Progresses (st : SampleReader) : Prop :=
  Terminates (readRecord group) st ∧
    ∀ u v, Reaches (readRecord group) st u → Continues (readRecord group) u v →
      u.hw.dataTail < v.hw.dataTail ∧ v.hw.dataTail ≤ st.hw.dataHead

/-- **Termination.** -/
theorem progresses_iff (st : SampleReader) :
    Progresses group st ↔ ∀ u, Reaches (readRecord group) st u → MovesOn group u := by
  constructor
  · rintro ⟨-, hprogress⟩ u hu
    obtain hlt | hlength := lt_or_ge u.hw.rest.length 8
    · exact fun hle => absurd hle (not_le.mpr hlt)
    · have hcont : Continues (readRecord group) u _ := continues_iff.mpr ⟨hlength, rfl⟩
      exact (readRecord_progress_iff hcont).mp (hprogress u _ hu hcont).1
  · intro hmoves
    refine ⟨terminates_of_measure
      (fun u => u.hw.dataHead.toNat - u.hw.dataTail.toNat) fun u v hu huv => ?_,
      fun u v hu huv => ⟨(readRecord_progress_iff huv).mpr (hmoves u hu), ?_⟩⟩
    · have hlt := UInt64.lt_iff_toNat_lt.mp ((readRecord_progress_iff huv).mpr (hmoves u hu))
      have hle := UInt64.le_iff_toNat_le.mp v.hw.tail_le_head
      have hhead : v.hw.dataHead = u.hw.dataHead :=
        (dataHead_of_reaches (hu.tail huv)).trans (dataHead_of_reaches hu).symm
      rw [hhead] at hle ⊢
      omega
    · rw [← dataHead_of_reaches (hu.tail huv)]
      exact v.hw.tail_le_head

end Iteration

/-! ### A sample record of four bytes -/

/-- A header of a sample record that claims to be shorter than itself, with all the fields of a
sample behind it. -/
def shortSample : SampleReader where
  hw :=
    { data := fun i => if i = 0 then 9 else if i = 6 then 4 else 0
      logSize := 12
      dataHead := 104
      dataTail := 0
      page_le := pageBits_le
      logSize_lt := pageBits_lt
      tail_le_head := UInt64.zero_le }
  lastValue := 0
  lastTime := 0
  samplesList := []
  collectedSamples := 0
  processedSamples := 0
  lostSamples := 0
  unknownSamples := 0
  discardedSamples := 0
  numFailures := 0

theorem header_shortSample :
    PerfEventHeader.ofBytes shortSample.hw.rest = { type := 9, misc := 0, size := 4 } := by
  rfl

/-- After an iteration the same header is there to read. -/
theorem handle_shortSample {st : SampleReader} (hst : st.hw = shortSample.hw) :
    (st.afterHeader.handle memoryGroup (.ofBytes shortSample.hw.rest)).hw = shortSample.hw := by
  have hread : SameRing st.hw st.afterHeader.hw := sameRing_afterReads
  rw [hst] at hread
  refine (hread.trans sameRing_handle).eq (UInt64.toNat_inj.mp ?_)
  have hlength : shortSample.hw.rest.length = 104 := length_rest
  have hadv : Advances shortSample.hw 8 st.afterHeader.hw := by
    rw [SampleReader.afterHeader, hst]
    exact advances_afterReads_one (by omega)
  have hkind : (PerfEventHeader.ofBytes shortSample.hw.rest).kind = .sample := by
    rw [header_shortSample]
    rfl
  have hfields : (afterReads 12 st.afterHeader.hw).dataTail.toNat = 104 := by
    rw [toNat_afterReads, hadv.dataTail_eq, hadv.rest_eq, List.length_drop, hlength]
    rfl
  rw [handle_sample_hw hkind, if_neg (fun h => Bool.false_ne_true h.1), header_shortSample,
    if_neg (by decide), toNat_perfSkipBuffer, toNat_perfSkipBuffer,
    sameRing_perfSkipBuffer.dataHead_eq, sameRing_afterReads.dataHead_eq, hadv.dataHead_eq,
    show sampleWords memoryGroup.formatGroup = 12 from rfl, hfields]
  decide

/-- After each iteration the same header is read again. -/
theorem not_terminates_shortSample :
    ¬ Terminates (readRecord memoryGroup) shortSample := by
  refine not_terminates_of_trap (fun st => st.hw = shortSample.hw) (fun st hst => ?_) rfl
  have hlength : 8 ≤ st.hw.rest.length := by
    rw [hst]
    decide
  refine ⟨_, continues_iff.mpr ⟨hlength, rfl⟩, ?_⟩
  rw [hst]
  exact handle_shortSample hst

/-- A call need not return. -/
theorem not_progresses :
    ¬ ∀ st : SampleReader, Progresses memoryGroup st :=
  fun h => not_terminates_shortSample (h shortSample).1

end Thanos
