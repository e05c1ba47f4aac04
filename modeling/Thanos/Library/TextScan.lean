import Thanos.Library.TextStream

/-!
# Scanning texts

`sscanf` takes a format and a text apart together, as far as they agree, and returns what the
conversions have assigned until then. `find`, `substr` and `eraseThrough` take a text apart at a
separator, in the way of `std::string`, where the position of a separator that is not there
is `none`.

* **Literals** (`sscanf_literal`, `sscanf_literal_of_not_start`): a format that starts with a
  text needs an input that starts with it.
* **Numbers** (`scanInt_toDigits`): a number that is printed and fits is read back.
* **Infixes** (`infix_append_cons_iff`): a text without a character is found on one side of it.
-/

namespace Thanos

namespace TextScan

open TextStream

/-- A directive of a format. -/
inductive Directive
  | char (c : Char)
  /-- `%d`. -/
  | int
  /-- `%lx`. -/
  | hex
  /-- `%s`. -/
  | word

/-- What a conversion assigns. -/
inductive Scanned
  | int (z : ℤ)
  | hex (n : UInt64)
  | word (text : List Char)

/-- A text that a format asks for. -/
def literal (text : List Char) : List Directive :=
  text.map .char

/-- A number as a `long`, stored in an `int`. -/
def toInt (z : ℤ) : ℤ :=
  (max (-2 ^ 63) (min z (2 ^ 63 - 1))).bmod (2 ^ 32)

/-- `%d`: the number, and what is left of the text. -/
def scanInt (text : List Char) : Option (ℤ × List Char) :=
  let (negative, unsigned) := splitSign (text.dropWhile isSpace)
  let digits := unsigned.takeWhile Char.isDigit
  if digits = [] then none
  else
    let n : ℤ := Nat.ofDigitChars 10 digits 0
    some (toInt (if negative then -n else n), unsigned.dropWhile Char.isDigit)

/-- `std::isxdigit`. -/
def isHexDigit (c : Char) : Bool :=
  c.isDigit || ('a' ≤ c && c ≤ 'f') || ('A' ≤ c && c ≤ 'F')

/-- The value of a hexadecimal digit. -/
def hexDigitValue (c : Char) : ℕ :=
  if c.isDigit then c.toNat - '0'.toNat
  else if 'a' ≤ c then 10 + (c.toNat - 'a'.toNat)
  else 10 + (c.toNat - 'A'.toNat)

/-- The value of hexadecimal digits. -/
def hexValue (digits : List Char) : ℕ :=
  digits.foldl (fun n c => 16 * n + hexDigitValue c) 0

/-- A prefix that tells the base, and what follows it. -/
def skipBase : List Char → List Char
  | '0' :: 'x' :: rest => rest
  | '0' :: 'X' :: rest => rest
  | text => text

/-- `%lx`: the number, and what is left of the text. -/
def scanHex (text : List Char) : Option (UInt64 × List Char) :=
  let (negative, unsigned) := splitSign (text.dropWhile isSpace)
  let digits := (skipBase unsigned).takeWhile isHexDigit
  if digits = [] then none
  else
    let n := hexValue digits
    let value := if n < 2 ^ 64 then (if negative then -UInt64.ofNat n else UInt64.ofNat n) else -1
    some (value, (skipBase unsigned).dropWhile isHexDigit)

/-- `%s`: the word, and what is left of the text. -/
def scanWord (text : List Char) : Option (List Char × List Char) :=
  let text := text.dropWhile isSpace
  let word := text.takeWhile fun c => !isSpace c
  if word = [] then none else some (word, text.dropWhile fun c => !isSpace c)

/-- `sscanf`: what the conversions assign. -/
def sscanf : List Directive → List Char → List Scanned
  | [], _ => []
  | .char _ :: _, [] => []
  | .char c :: format, d :: text => if c = d then sscanf format text else []
  | .int :: format, text =>
    match scanInt text with
    | none => []
    | some (z, rest) => .int z :: sscanf format rest
  | .hex :: format, text =>
    match scanHex text with
    | none => []
    | some (n, rest) => .hex n :: sscanf format rest
  | .word :: format, text =>
    match scanWord text with
    | none => []
    | some (word, rest) => .word word :: sscanf format rest

/-- `find` for a character. -/
def find (sep : Char) (text : List Char) : Option ℕ :=
  text.idxOf? sep

/-- `substr(0, pos)`. -/
def substr (text : List Char) : Option ℕ → List Char
  | none => text
  | some pos => text.take pos

/-- `erase(0, pos + 1)`, where `npos + 1` is 0. -/
def eraseThrough (text : List Char) : Option ℕ → List Char
  | none => text
  | some pos => text.drop (pos + 1)

variable {text token rest sub : List Char} {format : List Directive} {sep c : Char} {n : ℕ} {z : ℤ}

/-! ### Literals -/

/-- **Literals.** -/
theorem sscanf_literal : sscanf (literal text ++ format) (text ++ rest) = sscanf format rest := by
  induction text with
  | nil => rfl
  | cons c text ih =>
    change (if c = c then sscanf (literal text ++ format) (text ++ rest) else []) = _
    rw [if_pos rfl, ih]

theorem sscanf_literal_of_not_start (h : ¬ sub <+: text) :
    sscanf (literal sub ++ format) text = [] := by
  induction sub generalizing text with
  | nil => exact absurd List.nil_prefix h
  | cons c sub ih =>
    rcases text with _ | ⟨d, text⟩
    · rfl
    · change (if c = d then sscanf (literal sub ++ format) text else []) = []
      split_ifs with hcd
      · subst hcd
        exact ih fun hprefix => h (List.cons_prefix_cons.mpr ⟨rfl, hprefix⟩)
      · rfl

/-! ### Conversions -/

/-- A number that fits is stored as it is. -/
theorem toInt_natCast (hn : n < 2 ^ 31) : toInt n = n := by
  have hclamp : max (-2 ^ 63 : ℤ) (min (n : ℤ) (2 ^ 63 - 1)) = n := by omega
  rw [toInt, hclamp]
  exact Int.bmod_eq_of_le (by omega) (by omega)

/-- An `int` that is not negative is converted to a `size_t` as it is. -/
theorem ofInt_natCast (hn : n < 2 ^ 31) : UInt64.ofInt n = UInt64.ofNat n := by
  rw [UInt64.ofInt]
  congr 1
  omega

/-- What is taken from a text ends where the text does or at the first character behind it. -/
theorem takeWhile_append {p : Char → Bool} (htext : ∀ c ∈ text, p c = true)
    (hrest : ∀ c ∈ rest.head?, p c = false) :
    (text ++ rest).takeWhile p = text ∧ (text ++ rest).dropWhile p = rest := by
  rw [List.takeWhile_append_of_pos htext, List.dropWhile_append_of_pos htext]
  rcases rest with _ | ⟨c, rest⟩
  · exact ⟨List.append_nil text, rfl⟩
  · have hc : ¬ p c = true := by simp [hrest c rfl]
    rw [List.takeWhile_cons_of_neg hc, List.dropWhile_cons_of_neg hc, List.append_nil]
    exact ⟨rfl, rfl⟩

theorem dropWhile_isSpace (htext : ∀ c ∈ text.head?, isSpace c = false) :
    text.dropWhile isSpace = text := by
  rcases text with _ | ⟨c, text⟩
  · rfl
  · exact List.dropWhile_cons_of_neg (by simp [htext c rfl])

/-- **Numbers.** -/
theorem scanInt_toDigits (hrest : ∀ c ∈ rest.head?, c.isDigit = false) :
    scanInt (Nat.toDigits 10 n ++ rest) = some (toInt n, rest) := by
  have hdigits : ∀ d ∈ Nat.toDigits 10 n, d.isDigit = true := fun d hd =>
    Nat.isDigit_of_mem_toDigits (by decide) (by decide) hd
  have hne : Nat.toDigits 10 n ≠ [] := Nat.toDigits_ne_nil
  obtain ⟨htake, hdrop⟩ := takeWhile_append hdigits hrest
  obtain ⟨d, digits, hcons⟩ := List.exists_cons_of_ne_nil hne
  have hd : d.isDigit = true := hdigits d (hcons ▸ List.mem_cons_self)
  have hspace : (Nat.toDigits 10 n ++ rest).dropWhile isSpace = Nat.toDigits 10 n ++ rest := by
    refine dropWhile_isSpace fun c hc => isSpace_of_isDigit ?_
    rw [hcons] at hc
    exact Option.some.inj hc ▸ hd
  have hsign : splitSign (Nat.toDigits 10 n ++ rest) = (false, Nat.toDigits 10 n ++ rest) := by
    rw [hcons]
    exact splitSign_of_isDigit hd
  simp only [scanInt, hspace, hsign, htake, hdrop, hne, if_false, Bool.false_eq_true,
    Nat.ofDigitChars_ten_toDigits]

theorem isSpace_of_isHexDigit (hc : isHexDigit c = true) : isSpace c = false := by
  simp only [isHexDigit, Bool.or_eq_true, Bool.and_eq_true, decide_eq_true_eq] at hc
  obtain (hdigit | hlower) | hupper := hc
  · exact isSpace_of_isDigit hdigit
  · have hle : 97 ≤ c.toNat := UInt32.le_iff_toNat_le.mp hlower.1
    have hne : c ≠ ' ' := by
      rintro rfl
      exact absurd hle (by decide)
    simp only [isSpace, beq_eq_false_iff_ne.mpr hne, Bool.false_or, decide_eq_false_iff_not]
    omega
  · have hle : 65 ≤ c.toNat := UInt32.le_iff_toNat_le.mp hupper.1
    have hne : c ≠ ' ' := by
      rintro rfl
      exact absurd hle (by decide)
    simp only [isSpace, beq_eq_false_iff_ne.mpr hne, Bool.false_or, decide_eq_false_iff_not]
    omega

theorem splitSign_of_isHexDigit (htext : ∀ c ∈ text, isHexDigit c = true) :
    splitSign text = (false, text) := by
  unfold splitSign
  split
  · exact absurd (htext '-' List.mem_cons_self) (by decide)
  · exact absurd (htext '+' List.mem_cons_self) (by decide)
  · rfl

theorem skipBase_of_isHexDigit (htext : ∀ c ∈ text, isHexDigit c = true) :
    skipBase text = text := by
  unfold skipBase
  split
  · exact absurd (htext 'x' (by simp)) (by decide)
  · exact absurd (htext 'X' (by simp)) (by decide)
  · rfl

theorem scanHex_digits (hne : text ≠ []) (htext : ∀ c ∈ text, isHexDigit c = true)
    (hn : hexValue text < 2 ^ 64) :
    scanHex text = some (UInt64.ofNat (hexValue text), []) := by
  have hspace : text.dropWhile isSpace = text :=
    dropWhile_isSpace fun c hc => isSpace_of_isHexDigit (htext c (List.mem_of_mem_head? hc))
  have hrest : ∀ c ∈ ([] : List Char).head?, isHexDigit c = false := by simp
  obtain ⟨htake, hdrop⟩ := takeWhile_append htext hrest
  rw [List.append_nil] at htake hdrop
  simp only [scanHex, hspace, splitSign_of_isHexDigit htext, skipBase_of_isHexDigit htext, htake,
    hdrop, hne, hn, if_true, if_false, Bool.false_eq_true]

/-- A word is read as it is. -/
theorem scanWord_eq (hne : text ≠ []) (htext : ∀ c ∈ text, isSpace c = false) :
    scanWord text = some (text, []) := by
  have hspace : text.dropWhile isSpace = text :=
    dropWhile_isSpace fun c hc => htext c (List.mem_of_mem_head? hc)
  have hword : ∀ c ∈ text, (!isSpace c) = true := fun c hc => by rw [htext c hc]; rfl
  have hrest : ∀ c ∈ ([] : List Char).head?, (!isSpace c) = false := by simp
  obtain ⟨htake, hdrop⟩ := takeWhile_append hword hrest
  rw [List.append_nil] at htake hdrop
  simp only [scanWord, hspace, htake, hdrop, hne, if_false]

/-! ### Infixes -/

theorem prefix_append_cons_iff (hc : c ∉ sub) : sub <+: text ++ c :: rest ↔ sub <+: text := by
  constructor
  · rintro ⟨tail, htail⟩
    obtain ⟨l, htext, -⟩ | ⟨l, hsub, hl⟩ := List.append_eq_append_iff.mp htail
    · exact ⟨l, htext.symm⟩
    · rcases l with _ | ⟨d, l⟩
      · exact ⟨[], by simp [hsub]⟩
      · obtain ⟨rfl, -⟩ := List.cons.inj hl
        exact absurd (hsub ▸ by simp) hc
  · exact fun h => h.trans (List.prefix_append text (c :: rest))

/-- **Infixes.** -/
theorem infix_append_cons_iff (hc : c ∉ sub) :
    sub <:+: text ++ c :: rest ↔ sub <:+: text ∨ sub <:+: rest := by
  induction text with
  | nil =>
    have hstart : sub <+: c :: rest ↔ sub = [] := by
      rw [← List.nil_append (c :: rest), prefix_append_cons_iff hc, List.prefix_nil]
    rw [List.nil_append, List.infix_cons_iff, hstart, List.infix_nil]
  | cons d text ih =>
    have hstart : sub <+: d :: (text ++ c :: rest) ↔ sub <+: d :: text := by
      rw [← List.cons_append, prefix_append_cons_iff hc]
    rw [List.cons_append, List.infix_cons_iff, hstart, List.infix_cons_iff, or_assoc]
    exact or_congr Iff.rfl ih

/-! ### Separators -/

/-- What stands before a separator is told by it. -/
theorem eq_of_separated (htoken : sep ∉ token) (htext : sep ∉ text)
    (h : token ++ [sep] <+: text ++ sep :: rest) : token = text := by
  obtain ⟨tail, htail⟩ := h
  rw [List.append_assoc, List.singleton_append] at htail
  have hends : ∀ {text : List Char}, sep ∉ text → ∀ rest : List Char,
      (text ++ sep :: rest).takeWhile (fun c => decide (c ≠ sep)) = text := by
    intro text htext rest
    have hne : ∀ c ∈ text, decide (c ≠ sep) = true := by
      intro c hc
      exact decide_eq_true fun heq => htext (heq ▸ hc)
    exact (takeWhile_append hne (by simp)).1
  rw [← hends htoken tail, htail, hends htext rest]

theorem find_append (hsep : sep ∉ token) : find sep (token ++ sep :: rest) = some token.length := by
  induction token with
  | nil => simp [find, List.idxOf?_cons]
  | cons c token ih =>
    have hc : c ≠ sep := fun h => hsep (h ▸ List.mem_cons_self)
    have htoken : sep ∉ token := fun h => hsep (List.mem_cons_of_mem c h)
    have hrest := ih htoken
    rw [find] at hrest ⊢
    simp [List.idxOf?_cons, hc, hrest]

theorem find_eq_none_iff : find sep text = none ↔ sep ∉ text := by
  simp [find]

end TextScan

end Thanos
