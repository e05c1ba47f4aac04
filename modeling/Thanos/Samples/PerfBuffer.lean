import Thanos.Library.RingBuffer
import Thanos.Samples.Samples

/-!
# The sample buffer

The kernel writes records into a ring buffer and advances `data_head`, the program reads bytes
and advances `data_tail`. What is there to read is a list of bytes (`PerfBuffer.rest`), in which
positions and the end of the buffer do not occur any more.

* **Reads** (`perfReadBuffer_eq`): a read that is satisfied takes bytes off the front.
* **Skips** (`advances_perfSkipBuffer`): so does a skip of what is there.
* **Parsers** (`Parses.bind`): programs that read one field after another read consecutive
  pieces.
-/

namespace Thanos

/-- A list of bytes as a number, the least significant byte first. -/
def leNat (bytes : List UInt8) : ℕ :=
  bytes.foldr (fun byte n => byte.toNat + 256 * n) 0

/-- `perf_event_mmap_page` with its payload, and the mask of the descriptor. The positions never
wrap around. -/
structure PerfBuffer where
  /-- The payload. -/
  data : ℕ → UInt8
  /-- The size of the payload is a power of two, and at least a page. -/
  logSize : ℕ
  dataHead : UInt64
  dataTail : UInt64
  page_le : 12 ≤ logSize
  logSize_lt : logSize < 64
  tail_le_head : dataTail ≤ dataHead

/-- The positions in a page are given by 12 bits, -/
theorem pageBits_le : 12 ≤ 12 := le_rfl

/-- which is less than 64. -/
theorem pageBits_lt : 12 < 64 := by decide

namespace PerfBuffer

variable (hw : PerfBuffer) (sz : UInt64)

/-- The size of the payload. -/
def size : ℕ :=
  2 ^ hw.logSize

/-- `pgmsk`. -/
def pgmsk : UInt64 :=
  UInt64.ofNat (hw.size - 1)

/-- The size of what is available. -/
def availSz : UInt64 :=
  hw.dataHead - hw.dataTail

theorem tail_add_le_head {hw : PerfBuffer} {sz : UInt64} (h : sz ≤ hw.availSz) :
    hw.dataTail + sz ≤ hw.dataHead ∧
      (hw.dataTail + sz).toNat = hw.dataTail.toNat + sz.toNat := by
  have htail := UInt64.le_iff_toNat_le.mp hw.tail_le_head
  have hsz := UInt64.le_iff_toNat_le.mp h
  rw [availSz, UInt64.toNat_sub_of_le _ _ hw.tail_le_head] at hsz
  have hhead := hw.dataHead.toNat_lt
  have hadd : (hw.dataTail + sz).toNat = hw.dataTail.toNat + sz.toNat := by
    rw [UInt64.toNat_add, Nat.mod_eq_of_lt (by omega)]
  refine ⟨UInt64.le_iff_toNat_le.mpr ?_, hadd⟩
  omega

/-- `data_tail` is advanced by what is available at most. -/
def advance (h : sz ≤ hw.availSz) : PerfBuffer :=
  { hw with dataTail := hw.dataTail + sz, tail_le_head := (tail_add_le_head h).1 }

/-- `perf_read_buffer`, which fails if there is less than `sz`. -/
def perfReadBuffer : Option (List UInt8 × PerfBuffer) :=
  let tail := hw.dataTail &&& hw.pgmsk
  if h : hw.availSz < sz then none
  else
    some (copyWrapped hw.data hw.size tail.toNat sz.toNat, hw.advance sz (UInt64.not_lt.mp h))

/-- `perf_skip_buffer`, which skips what is available if that is less than `sz`. -/
def perfSkipBuffer : PerfBuffer :=
  if h : hw.dataHead < hw.dataTail + sz then hw.advance hw.availSz le_rfl
  else { hw with dataTail := hw.dataTail + sz, tail_le_head := UInt64.not_lt.mp h }

/-! ### The bytes that are there to read -/

/-- The bytes between `data_tail` and `data_head`. -/
def rest : List UInt8 :=
  window hw.data hw.size hw.dataTail.toNat hw.availSz.toNat

/-- `hw'` is `hw` after `n` of its bytes. -/
structure Advances (hw : PerfBuffer) (n : ℕ) (hw' : PerfBuffer) : Prop where
  rest_eq : hw'.rest = hw.rest.drop n
  dataTail_eq : hw'.dataTail.toNat = hw.dataTail.toNat + n
  dataHead_eq : hw'.dataHead = hw.dataHead

variable {hw sz} {hw' hw'' : PerfBuffer} {n m : ℕ}

theorem length_rest : hw.rest.length = hw.availSz.toNat :=
  length_window

theorem rest_eq_nil_iff : hw.rest = [] ↔ hw.dataTail = hw.dataHead := by
  rw [← List.length_eq_zero_iff, length_rest, availSz,
    UInt64.toNat_sub_of_le _ _ hw.tail_le_head, ← UInt64.toNat_inj]
  have htail := UInt64.le_iff_toNat_le.mp hw.tail_le_head
  omega

theorem Advances.refl : Advances hw 0 hw :=
  ⟨rfl, rfl, rfl⟩

theorem Advances.trans (h : Advances hw n hw') (h' : Advances hw' m hw'') :
    Advances hw (n + m) hw'' where
  rest_eq := by rw [h'.rest_eq, h.rest_eq, List.drop_drop]
  dataTail_eq := by rw [h'.dataTail_eq, h.dataTail_eq, add_assoc]
  dataHead_eq := h'.dataHead_eq.trans h.dataHead_eq

theorem advances_advance (h : sz ≤ hw.availSz) : Advances hw sz.toNat (hw.advance sz h) where
  rest_eq := by
    have hsz := UInt64.le_iff_toNat_le.mp h
    have hadd := (tail_add_le_head h).2
    have havail : (hw.advance sz h).availSz.toNat = hw.availSz.toNat - sz.toNat := by
      rw [availSz, UInt64.toNat_sub_of_le _ _ (hw.advance sz h).tail_le_head, availSz,
        UInt64.toNat_sub_of_le _ _ hw.tail_le_head]
      simp only [advance, hadd]
      omega
    rw [rest, rest, drop_window hsz, havail, ← hadd]
    rfl
  dataTail_eq := (tail_add_le_head h).2
  dataHead_eq := rfl

theorem size_pos : 0 < hw.size :=
  Nat.two_pow_pos hw.logSize

theorem tail_and_pgmsk : (hw.dataTail &&& hw.pgmsk).toNat = hw.dataTail.toNat % hw.size := by
  have hsize : hw.size < 2 ^ 64 := Nat.pow_lt_pow_right (by decide) hw.logSize_lt
  have hmask : hw.pgmsk.toNat = 2 ^ hw.logSize - 1 := by
    rw [pgmsk, UInt64.toNat_ofNat', Nat.mod_eq_of_lt (by omega), size]
  rw [UInt64.toNat_and, hmask, Nat.and_two_pow_sub_one_eq_mod, size]

/-- **Reads.** -/
theorem perfReadBuffer_eq (hrest : sz.toNat ≤ hw.rest.length) (hsz : sz.toNat ≤ 4096) :
    ∃ hw', hw.perfReadBuffer sz = some (hw.rest.take sz.toNat, hw') ∧
      Advances hw sz.toNat hw' := by
  rw [length_rest] at hrest
  have havail : sz ≤ hw.availSz := UInt64.le_iff_toNat_le.mpr hrest
  have hpage : 4096 ≤ hw.size := Nat.pow_le_pow_right two_pos hw.page_le
  refine ⟨hw.advance sz havail, ?_, advances_advance havail⟩
  rw [perfReadBuffer, dif_neg (UInt64.not_lt.mpr havail), tail_and_pgmsk,
    copyWrapped_eq (Nat.mod_lt _ size_pos) (hsz.trans hpage), window_mod, rest, take_window hrest]

/-- A read of more than is there fails. -/
theorem perfReadBuffer_eq_none (hrest : hw.rest.length < sz.toNat) :
    hw.perfReadBuffer sz = none := by
  rw [length_rest] at hrest
  exact dif_pos (UInt64.lt_iff_toNat_lt.mpr hrest)

/-- **Skips.** -/
theorem advances_perfSkipBuffer (h : sz.toNat ≤ hw.rest.length) :
    Advances hw sz.toNat (hw.perfSkipBuffer sz) := by
  rw [length_rest] at h
  have havail : sz ≤ hw.availSz := UInt64.le_iff_toNat_le.mpr h
  rw [perfSkipBuffer, dif_neg (UInt64.not_lt.mpr (tail_add_le_head havail).1)]
  exact advances_advance havail

/-! ### Parsers -/

/-- A program reads `n` of the bytes that are there and returns `a`. -/
def ParsesAt {α : Type} (hw : PerfBuffer) (m : StateM PerfBuffer α) (n : ℕ) (a : α) : Prop :=
  ∃ hw', m hw = (a, hw') ∧ Advances hw n hw'

/-- A program that, given enough bytes, reads `n` of them and returns `f` of what is there. -/
def Parses {α : Type} (m : StateM PerfBuffer α) (n : ℕ) (f : List UInt8 → α) : Prop :=
  ∀ hw : PerfBuffer, n ≤ hw.rest.length → ParsesAt hw m n (f hw.rest)

theorem ParsesAt.bind {α β : Type} {m : StateM PerfBuffer α} {k : α → StateM PerfBuffer β}
    {n n' : ℕ} {a : α} {b : β} (h : ParsesAt hw m n a)
    (h' : ∀ hw', Advances hw n hw' → ParsesAt hw' (k a) n' b) :
    ParsesAt hw (m >>= k) (n + n') b := by
  obtain ⟨hw', hm, hadv⟩ := h
  obtain ⟨hw'', hk, hadv'⟩ := h' hw' hadv
  refine ⟨hw'', ?_, hadv.trans hadv'⟩
  change k (m hw).1 (m hw).2 = (b, hw'')
  rw [hm]
  exact hk

theorem Parses.pure {α : Type} (a : α) : Parses (Pure.pure a) 0 fun _ => a :=
  fun hw _ => ⟨hw, rfl, .refl⟩

/-- **Parsers.** -/
theorem Parses.bind {α β : Type} {m : StateM PerfBuffer α} {k : α → StateM PerfBuffer β}
    {n n' : ℕ} {f : List UInt8 → α} {g : α → List UInt8 → β} (h : Parses m n f)
    (h' : ∀ a, Parses (k a) n' (g a)) :
    Parses (m >>= k) (n + n') fun bytes => g (f bytes) (bytes.drop n) := by
  intro hw hlength
  refine (h hw (by omega)).bind fun hw' hadv => ?_
  have hrest : n' ≤ hw'.rest.length := by
    rw [hadv.rest_eq, List.length_drop]
    omega
  have hk := h' (f hw.rest) hw' hrest
  rwa [hadv.rest_eq] at hk

theorem Parses.congr {α : Type} {m : StateM PerfBuffer α} {n : ℕ} {f f' : List UInt8 → α}
    (h : Parses m n f) (hf : ∀ bytes, f bytes = f' bytes) : Parses m n f' := by
  have heq : f = f' := funext hf
  rwa [← heq]

/-- The `i`-th of the 64-bit words at the front of some bytes. -/
def word (i : ℕ) (bytes : List UInt8) : UInt64 :=
  UInt64.ofNat (leNat ((bytes.drop (8 * i)).take 8))

/-- The two halves of the `i`-th word, as numbers. -/
def halves (i : ℕ) (bytes : List UInt8) : ℕ × ℕ :=
  let bytes := (bytes.drop (8 * i)).take 8
  (leNat (bytes.take 4), leNat (bytes.drop 4))

theorem word_drop {i : ℕ} {bytes : List UInt8} :
    word i (bytes.drop (8 * n)) = word (n + i) bytes := by
  rw [word, word, List.drop_drop, Nat.mul_add]

theorem halves_drop {i : ℕ} {bytes : List UInt8} :
    halves i (bytes.drop (8 * n)) = halves (n + i) bytes := by
  rw [halves, halves, List.drop_drop, Nat.mul_add]

/-- `perf_read_buffer_64` into a variable with some value, which a read that fails leaves. -/
def perfReadBuffer64 (value : UInt64) : StateM PerfBuffer UInt64 := fun hw =>
  match hw.perfReadBuffer 8 with
  | none => (value, hw)
  | some (bytes, hw) => (UInt64.ofNat (leNat bytes), hw)

/-- `perf_read_buffer` into a structure of two 32-bit fields, here numbers. -/
def perfReadBufferPair (value : ℕ × ℕ) : StateM PerfBuffer (ℕ × ℕ) := fun hw =>
  match hw.perfReadBuffer 8 with
  | none => (value, hw)
  | some (bytes, hw) => ((leNat (bytes.take 4), leNat (bytes.drop 4)), hw)

theorem parses_perfReadBuffer64 (value : UInt64) :
    Parses (perfReadBuffer64 value) (8 * 1) (word 0) := by
  intro hw hlength
  obtain ⟨hw', hread, hadv⟩ :=
    perfReadBuffer_eq (show (8 : UInt64).toNat ≤ hw.rest.length from hlength) (by decide)
  exact ⟨hw', by rw [perfReadBuffer64, hread]; rfl, hadv⟩

theorem parses_perfReadBufferPair (value : ℕ × ℕ) :
    Parses (perfReadBufferPair value) (8 * 1) (halves 0) := by
  intro hw hlength
  obtain ⟨hw', hread, hadv⟩ :=
    perfReadBuffer_eq (show (8 : UInt64).toNat ≤ hw.rest.length from hlength) (by decide)
  exact ⟨hw', by rw [perfReadBufferPair, hread]; rfl, hadv⟩

end PerfBuffer

end Thanos
