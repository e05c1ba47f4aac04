import Mathlib.Algebra.Order.Ring.Int
import Mathlib.Data.List.TakeWhile
import Mathlib.Data.Nat.Notation

/-!
# Formatted input

A `TextStream` is an input stream over a text, in the way of `std::istream`: formatted input skips
white space, a number ends at the first character that is not a digit, and after a failure nothing
is read any more and the variables keep their values. Only the C locale and base ten are
supported.

* **Numbers** (`readNumber_showInt`): a number that is printed and fits is read back.
* **Texts** (`Reads.bind`): what readers read one after another from the texts of several values.
* **Lines** (`getline_append`): a line is read up to its first delimiter.
-/

namespace Thanos

universe u v

/-- An input stream: the characters that have not been read, and the flags. -/
structure TextStream where
  chars : List Char
  eof : Bool
  failed : Bool
  deriving DecidableEq

/-- A step that reads from a stream. -/
abbrev Reader :=
  StateM TextStream

namespace TextStream

/-- A stream before anything has been read. -/
def ofText (chars : List Char) : TextStream :=
  ⟨chars, false, false⟩

/-- `good`. -/
def good (s : TextStream) : Bool :=
  !s.eof && !s.failed

/-- `std::isspace`. -/
def isSpace (c : Char) : Bool :=
  c == ' ' || decide (9 ≤ c.toNat ∧ c.toNat ≤ 13)

/-- What formatted input does first: white space is skipped, and there must be something after
it. -/
def skipSpace (s : TextStream) : TextStream :=
  if s.good then
    match s.chars.dropWhile isSpace with
    | [] => ⟨[], true, true⟩
    | c :: rest => ofText (c :: rest)
  else { s with failed := true }

/-- `operator>>` for a character. -/
def readChar (old : Char) : Reader Char := fun s =>
  match s.skipSpace with
  | ⟨c :: rest, false, false⟩ => (c, ofText rest)
  | s => (old, s)

/-- An integer type that can be read. -/
class Numeric (α : Type u) where
  zero : α
  /-- The value for an integer, the nearest one if it does not fit, and whether it fits. A signed
  number fits an unsigned type if its absolute value does. -/
  ofInt : ℤ → α × Bool

instance : Numeric Int32 where
  zero := 0
  ofInt z :=
    if z < -2 ^ 31 then (.minValue, false)
    else if 2 ^ 31 ≤ z then (.maxValue, false)
    else (.ofInt z, true)

instance : Numeric Int64 where
  zero := 0
  ofInt z :=
    if z < -2 ^ 63 then (.minValue, false)
    else if 2 ^ 63 ≤ z then (.maxValue, false)
    else (.ofInt z, true)

instance : Numeric UInt32 where
  zero := 0
  ofInt z := if z.natAbs < 2 ^ 32 then (.ofInt z, true) else (.ofNat (2 ^ 32 - 1), false)

instance : Numeric UInt64 where
  zero := 0
  ofInt z := if z.natAbs < 2 ^ 64 then (.ofInt z, true) else (.ofNat (2 ^ 64 - 1), false)

/-- A sign, and what follows it. -/
def splitSign : List Char → Bool × List Char
  | '-' :: rest => (true, rest)
  | '+' :: rest => (false, rest)
  | text => (false, text)

/-- `operator>>` for an integer. -/
def readNumber {α : Type} [Numeric α] (old : α) : Reader α := fun s =>
  match s.skipSpace with
  | ⟨c :: text, false, false⟩ =>
    let (negative, unsigned) := splitSign (c :: text)
    let digits := unsigned.takeWhile Char.isDigit
    let rest := unsigned.dropWhile Char.isDigit
    if digits = [] then (Numeric.zero, ⟨rest, rest.isEmpty, true⟩)
    else
      let n : ℤ := Nat.ofDigitChars 10 digits 0
      let (value, fits) := Numeric.ofInt (if negative then -n else n)
      (value, ⟨rest, rest.isEmpty, !fits⟩)
  | s => (old, s)

/-- `std::getline`, which takes the delimiter from the stream as well. -/
def getline (delim : Char) (old : List Char) : Reader (List Char) := fun s =>
  if s.good then
    match s.chars.dropWhile (· ≠ delim) with
    | [] => (s.chars, ⟨[], true, s.chars.isEmpty⟩)
    | _ :: rest => (s.chars.takeWhile (· ≠ delim), ofText rest)
  else (old, { s with failed := true })

/-- An integer as it is printed. -/
def showInt : ℤ → List Char
  | .ofNat n => Nat.toDigits 10 n
  | .negSucc n => '-' :: Nat.toDigits 10 (n + 1)

/-- Something at which a number ends. -/
def Delimited (text : List Char) : Prop :=
  ∃ c rest, text = c :: rest ∧ c.isDigit = false

variable {α : Type} {c : Char} {text rest : List Char} {z : ℤ}

/-! ### White space -/

@[simp]
theorem good_ofText : (ofText text).good = true :=
  rfl

theorem skipSpace_cons (hc : isSpace c = false) :
    (ofText (c :: rest)).skipSpace = ofText (c :: rest) := by
  rw [skipSpace, good_ofText, if_pos rfl, ofText, List.dropWhile_cons_of_neg (by simp [hc])]
  rfl

/-- White space before a value makes no difference. -/
theorem skipSpace_space (hc : isSpace c = true) :
    (ofText (c :: text)).skipSpace = (ofText text).skipSpace := by
  rw [skipSpace, skipSpace, good_ofText, good_ofText, if_pos rfl, if_pos rfl, ofText, ofText,
    List.dropWhile_cons_of_pos hc]

theorem isSpace_of_isDigit (hc : c.isDigit = true) : isSpace c = false := by
  simp only [Char.isDigit, ge_iff_le, Bool.and_eq_true, decide_eq_true_eq] at hc
  have hlow : 48 ≤ c.toNat := UInt32.le_iff_toNat_le.mp hc.1
  have hne : c ≠ ' ' := by
    rintro rfl
    exact absurd hlow (by decide)
  simp only [isSpace, beq_eq_false_iff_ne.mpr hne, Bool.false_or, decide_eq_false_iff_not]
  omega

/-! ### Numbers -/

theorem delimited_cons (hc : c.isDigit = false) : Delimited (c :: rest) :=
  ⟨c, rest, rfl, hc⟩

/-- The digits of a number end where they are delimited. -/
theorem takeWhile_toDigits (n : ℕ) (hrest : Delimited rest) :
    (Nat.toDigits 10 n ++ rest).takeWhile Char.isDigit = Nat.toDigits 10 n ∧
      (Nat.toDigits 10 n ++ rest).dropWhile Char.isDigit = rest := by
  obtain ⟨c, rest, rfl, hc⟩ := hrest
  have hdigits : ∀ d ∈ Nat.toDigits 10 n, d.isDigit = true := fun d hd =>
    Nat.isDigit_of_mem_toDigits (by decide) (by decide) hd
  rw [List.takeWhile_append_of_pos hdigits, List.dropWhile_append_of_pos hdigits,
    List.takeWhile_cons_of_neg (by simp [hc]), List.dropWhile_cons_of_neg (by simp [hc]),
    List.append_nil]
  exact ⟨rfl, rfl⟩

theorem splitSign_of_isDigit (hc : c.isDigit = true) :
    splitSign (c :: rest) = (false, c :: rest) := by
  unfold splitSign
  split
  · exact absurd hc (by simp_all)
  · exact absurd hc (by simp_all)
  · rfl

/-- **Numbers.** -/
theorem readNumber_showInt [Numeric α] {a : α} (h : Numeric.ofInt z = (a, true))
    (hrest : Delimited rest) (old : α) :
    readNumber old (ofText (showInt z ++ rest)) = (a, ofText rest) := by
  have hsplit : ∃ c text, showInt z ++ rest = c :: text ∧ isSpace c = false ∧
      splitSign (c :: text) = (decide (z < 0), Nat.toDigits 10 z.natAbs ++ rest) := by
    rcases z with n | n
    · have hne : Nat.toDigits 10 n ≠ [] := Nat.toDigits_ne_nil
      obtain ⟨d, digits, hdigits⟩ := List.exists_cons_of_ne_nil hne
      have hd : d.isDigit = true :=
        Nat.isDigit_of_mem_toDigits (by decide) (by decide) (hdigits ▸ List.mem_cons_self)
      refine ⟨d, digits ++ rest, by rw [showInt, hdigits]; rfl, isSpace_of_isDigit hd, ?_⟩
      rw [splitSign_of_isDigit hd]
      simp [hdigits]
    · refine ⟨'-', Nat.toDigits 10 (n + 1) ++ rest, rfl, by decide, ?_⟩
      rw [splitSign]
      simp
  obtain ⟨c, text, htext, hc, hsign⟩ := hsplit
  have hvalue : (if decide (z < 0) = true then -(z.natAbs : ℤ) else z.natAbs) = z := by
    split_ifs with hneg
    · rw [decide_eq_true_eq] at hneg
      omega
    · rw [decide_eq_true_eq] at hneg
      omega
  obtain ⟨htake, hdrop⟩ := takeWhile_toDigits z.natAbs hrest
  have hnonempty : rest.isEmpty = false := by
    obtain ⟨d, rest, rfl, -⟩ := hrest
    rfl
  rw [readNumber, htext, skipSpace_cons hc]
  simp only [ofText, hsign, htake, hdrop, Nat.toDigits_ne_nil, if_false,
    Nat.ofDigitChars_ten_toDigits, hvalue, h, hnonempty, Bool.not_true]

/-- A number that follows a space. -/
def field (z : ℤ) : List Char :=
  ' ' :: showInt z

theorem readNumber_field [Numeric α] {a : α} (h : Numeric.ofInt z = (a, true))
    (hrest : Delimited rest) (old : α) :
    readNumber old (ofText (field z ++ rest)) = (a, ofText rest) := by
  have hspace : isSpace ' ' = true := by decide
  rw [← readNumber_showInt h hrest old, field, List.cons_append, readNumber, readNumber,
    skipSpace_space hspace]

theorem ofInt_int32 (n : Int32) : Numeric.ofInt n.toInt = (n, true) := by
  have hlow := n.le_toInt
  have hhigh := n.toInt_lt
  simp only [Numeric.ofInt]
  rw [if_neg (by omega), if_neg (by omega), Int32.ofInt_toInt]

theorem ofInt_int64 (n : Int64) : Numeric.ofInt n.toInt = (n, true) := by
  have hlow := n.le_toInt
  have hhigh := n.toInt_lt
  simp only [Numeric.ofInt]
  rw [if_neg (by omega), if_neg (by omega), Int64.ofInt_toInt]

/-- An unsigned type takes a negative number modulo its size. -/
theorem ofInt_uint32 (hz : z.natAbs < 2 ^ 32) : Numeric.ofInt z = (UInt32.ofInt z, true) :=
  if_pos hz

theorem ofInt_uint64 (hz : z.natAbs < 2 ^ 64) : Numeric.ofInt z = (UInt64.ofInt z, true) :=
  if_pos hz

theorem ofInt_uint64_natCast {n : ℕ} (hn : n < 2 ^ 64) :
    Numeric.ofInt (n : ℤ) = (UInt64.ofNat n, true) := by
  rw [ofInt_uint64 (by rwa [Int.natAbs_natCast]), UInt64.ofInt]
  congr 2
  omega

/-! ### Texts -/

/-- A reader reads a value from its text, whatever follows it. -/
structure Reads (r : Reader α) (text : List Char) (a : α) : Prop where
  eq : ∀ rest, Delimited rest → r (ofText (text ++ rest)) = (a, ofText rest)
  /-- A number before the text ends there. -/
  delimited : ∀ rest, Delimited rest → Delimited (text ++ rest)

theorem bind_apply {β : Type} (r : Reader α) (f : α → Reader β) (s : TextStream) :
    (r >>= f) s = f (r s).1 (r s).2 :=
  (rfl)

theorem pure_apply (a : α) (s : TextStream) : (pure a : Reader α) s = (a, s) :=
  (rfl)

theorem Reads.pure (a : α) : Reads (pure a) [] a :=
  ⟨fun _ _ => rfl, fun _ hrest => hrest⟩

/-- **Texts.** -/
theorem Reads.bind {β : Type} {r : Reader α} {f : α → Reader β} {text' : List Char} {a : α} {b : β}
    (h : Reads r text a) (h' : Reads (f a) text' b) : Reads (r >>= f) (text ++ text') b := by
  refine ⟨fun rest hrest => ?_, fun rest hrest => ?_⟩
  · rw [List.append_assoc, bind_apply, h.eq _ (h'.delimited rest hrest), h'.eq rest hrest]
  · rw [List.append_assoc]
    exact h.delimited _ (h'.delimited rest hrest)

theorem reads_field [Numeric α] {a : α} (h : Numeric.ofInt z = (a, true)) (old : α) :
    Reads (readNumber old) (field z) a :=
  ⟨fun _ hrest => readNumber_field h hrest old, fun _ _ => delimited_cons (by decide)⟩

/-- What is read has a property, whatever the stream is. -/
def Ensures (r : Reader α) (post : α → Prop) : Prop :=
  ∀ s, post (r s).1

theorem Ensures.pure {post : α → Prop} {a : α} (h : post a) : Ensures (pure a) post :=
  fun _ => h

/-- The last reader decides. -/
theorem Ensures.bind {β : Type} {post : β → Prop} (r : Reader α) {f : α → Reader β}
    (h : ∀ a, Ensures (f a) post) : Ensures (r >>= f) post := by
  intro s
  rw [bind_apply]
  exact h _ _

/-! ### Lines -/

/-- **Lines.** -/
theorem getline_append {delim : Char} (htext : delim ∉ text) (old : List Char) :
    getline delim old (ofText (text ++ delim :: rest)) = (text, ofText rest) := by
  have hchars : ∀ c ∈ text, decide (c ≠ delim) = true := fun c hc =>
    decide_eq_true fun heq => htext (heq ▸ hc)
  rw [getline, good_ofText, if_pos rfl, ofText, List.dropWhile_append_of_pos hchars,
    List.takeWhile_append_of_pos hchars, List.dropWhile_cons_of_neg (by simp),
    List.takeWhile_cons_of_neg (by simp), List.append_nil]

theorem readChar_cons (hc : isSpace c = false) (old : Char) :
    readChar old (ofText (c :: rest)) = (c, ofText rest) := by
  rw [readChar, skipSpace_cons hc]
  rfl

/-- What is read from a text with a character does not depend on what follows the character. -/
theorem exists_readChar_append (hc : isSpace c = false) (old : Char) (text : List Char) :
    ∃ c', ∀ rest, (readChar old (ofText (text ++ c :: rest))).1 = c' := by
  induction text with
  | nil => exact ⟨c, fun rest => by rw [List.nil_append, readChar_cons hc]⟩
  | cons d text ih =>
    by_cases hd : isSpace d = true
    · obtain ⟨c', hc'⟩ := ih
      refine ⟨c', fun rest => ?_⟩
      rw [List.cons_append, readChar, skipSpace_space hd]
      exact hc' rest
    · refine ⟨d, fun rest => ?_⟩
      rw [List.cons_append, readChar_cons (by simpa using hd)]

end TextStream

end Thanos
