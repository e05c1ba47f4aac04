import Mathlib.Algebra.Field.Rat
import Thanos.Library.TextStream

/-!
# Decimal numbers

`operator>>` for a floating-point type collects the characters of a decimal number as long as they
can be part of one, and then converts all of them. If that is not possible the value is 0 and
the stream has failed; if the number is too large it is the largest value of the type, and
the stream has failed as well.

* **Numbers** (`decimals`): the numbers at the front of a text, if there are that many.
* **Readers** (`exists_readReal`): as long as there are numbers they are read, and the stream
  does not fail.
-/

namespace Thanos

universe u

open TextStream

/-- The characters of a decimal number. -/
structure Numeral where
  negative : Bool
  whole : List Char
  fraction : List Char
  /-- Whether the exponent is negative, and its digits. -/
  exponent : Option (Bool × List Char)

namespace Numeral

/-- The characters of a number in front of a text, and what follows them. -/
def scan (text : List Char) : Numeral × List Char :=
  let (negative, text) := splitSign text
  let whole := text.takeWhile Char.isDigit
  let text := text.dropWhile Char.isDigit
  let (fraction, text) :=
    match text with
    | '.' :: text => (text.takeWhile Char.isDigit, text.dropWhile Char.isDigit)
    | text => ([], text)
  match text with
  | c :: rest =>
    -- an exponent is only looked for behind a digit
    if (c = 'e' ∨ c = 'E') ∧ whole ++ fraction ≠ [] then
      let (down, rest) := splitSign rest
      (⟨negative, whole, fraction, some (down, rest.takeWhile Char.isDigit)⟩,
        rest.dropWhile Char.isDigit)
    else (⟨negative, whole, fraction, none⟩, c :: rest)
  | [] => (⟨negative, whole, fraction, none⟩, [])

/-- All of the characters can be converted. -/
def wellFormed (numeral : Numeral) : Bool :=
  numeral.whole ++ numeral.fraction ≠ [] && numeral.exponent.all fun e => e.2 ≠ []

/-- The exponent of the last digit. -/
def lastExponent (numeral : Numeral) : ℤ :=
  let e : ℤ :=
    match numeral.exponent with
    | none => 0
    | some (down, digits) =>
      if down then -(Nat.ofDigitChars 10 digits 0 : ℤ) else Nat.ofDigitChars 10 digits 0
  e - numeral.fraction.length

/-- The number itself. -/
def value (numeral : Numeral) : ℚ :=
  let n : ℚ := Nat.ofDigitChars 10 (numeral.whole ++ numeral.fraction) 0
  (if numeral.negative then -n else n) * (10 : ℚ) ^ numeral.lastExponent

end Numeral

/-- A number type that can be read in decimal. -/
class Decimal (α : Type u) where
  zero : α
  /-- The value that a number is rounded to, the largest or the lowest one if it is too large,
  and whether it is not. -/
  ofNumeral : Numeral → α × Bool

/-- Every number is a value. -/
instance : Decimal ℚ where
  zero := 0
  ofNumeral numeral := ⟨numeral.value, true⟩

namespace TextStream

variable {α : Type} [Decimal α]

/-- `operator>>` for a floating-point type. -/
def readReal (old : α) : Reader α := fun s =>
  match s.skipSpace with
  | ⟨c :: text, false, false⟩ =>
    let (numeral, rest) := Numeral.scan (c :: text)
    if numeral.wellFormed then
      let (value, fits) := Decimal.ofNumeral numeral
      (value, ⟨rest, rest.isEmpty, !fits⟩)
    else (Decimal.zero, ⟨rest, rest.isEmpty, true⟩)
  | s => (old, s)

variable (α) in
/-- The numbers at the front of a text, with white space before each of them, if there are that
many and none of them is too large. -/
def decimals : ℕ → List Char → Option (List α)
  | 0, _ => some []
  | n + 1, text =>
    match text.dropWhile isSpace with
    | [] => none
    | c :: text =>
      let (numeral, rest) := Numeral.scan (c :: text)
      let (value, fits) : α × Bool := Decimal.ofNumeral numeral
      if numeral.wellFormed && fits then (decimals n rest).map (value :: ·) else none

/-- The stream has not failed, and has not met its end too early. -/
structure Healthy (s : TextStream) : Prop where
  failed_eq : s.failed = false
  chars_eq : s.eof = true → s.chars = []

theorem healthy_ofText (text : List Char) : Healthy (ofText text) :=
  ⟨rfl, fun h => absurd h Bool.false_ne_true⟩

variable {s : TextStream} {n : ℕ} {values : List α}

/-- **Readers.** -/
theorem exists_readReal (hs : Healthy s) (h : decimals α (n + 1) s.chars = some values) (old : α) :
    ∃ value s' values', values = value :: values' ∧ readReal old s = (value, s') ∧ Healthy s' ∧
      decimals α n s'.chars = some values' := by
  rw [decimals] at h
  rcases hchars : s.chars.dropWhile isSpace with _ | ⟨c, text⟩
  · rw [hchars] at h
    exact absurd h (by simp)
  · have hgood : s.good = true := by
      have heof : s.eof ≠ true := fun heof => by simp [hs.chars_eq heof] at hchars
      simp [TextStream.good, hs.failed_eq, heof]
    have hskip : s.skipSpace = ofText (c :: text) := by
      rw [skipSpace, if_pos hgood, hchars]
    rw [hchars] at h
    simp only [Option.ite_none_right_eq_some, Option.map_eq_some_iff, Bool.and_eq_true] at h
    obtain ⟨⟨hwellFormed, hfits⟩, values', hvalues', rfl⟩ := h
    let rest := (Numeral.scan (c :: text)).2
    refine ⟨_, ⟨rest, rest.isEmpty, false⟩, values', rfl, ?_, ⟨rfl, List.isEmpty_iff.mp⟩, hvalues'⟩
    rw [readReal, hskip]
    simp [ofText, hwellFormed, hfits, rest]

end TextStream

end Thanos
