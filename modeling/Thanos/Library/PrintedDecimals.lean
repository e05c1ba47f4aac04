import Mathlib.Data.Int.Log
import Mathlib.Data.List.DropRight
import Mathlib.Data.NNRat.Floor
import Thanos.Library.Decimals

/-!
# Printed decimals

`operator<<` prints a floating-point number with some significant digits, here one and `q` more. A
small exponent is not printed, and neither are zeros at the end of the fraction.

* **Rounding** (`rounded_rounded`): what has been rounded is not changed by rounding it again.
* **Numbers** (`value_shown`): the characters that are printed are those of the rounded number.
* **Texts** (`scan_text`): these characters are found again in front of white space.
-/

namespace Thanos

universe u

/-! ### Rounding -/

/-- The nearest integer, the even one if there are two. -/
def roundHalfEven (x : ℚ≥0) : ℕ :=
  let low := ⌊x⌋₊
  if x < low + 1 / 2 then low
  else if low + 1 / 2 < x then low + 1
  else if Even low then low
  else low + 1

/-- The significant digits of a positive number, and the exponent of the first of them. -/
def significant (q : ℕ) (v : ℚ≥0) : ℕ × ℤ :=
  let e := Int.log 10 v
  let m := roundHalfEven (v * 10 ^ (q - e))
  -- the number may have been rounded to a power of ten
  if m = 10 ^ (q + 1) then (10 ^ q, e + 1) else (m, e)

/-- A number with some significant digits. -/
def rounded (q : ℕ) (v : ℚ≥0) : ℚ≥0 :=
  if v = 0 then 0 else (significant q v).1 * 10 ^ ((significant q v).2 - q)

section

variable {x v : ℚ≥0} {n m q : ℕ} {e : ℤ}

theorem roundHalfEven_natCast : roundHalfEven n = n := by
  have hlow : ⌊(n : ℚ≥0)⌋₊ = n := Nat.floor_natCast n
  rw [roundHalfEven, hlow, if_pos (lt_add_of_pos_right _ (by norm_num))]

theorem floor_le_roundHalfEven : ⌊x⌋₊ ≤ roundHalfEven x := by
  rw [roundHalfEven]
  split_ifs <;> omega

theorem roundHalfEven_le_floor : roundHalfEven x ≤ ⌊x⌋₊ + 1 := by
  rw [roundHalfEven]
  split_ifs <;> omega

/-- The digits are as many as they should be. -/
theorem significant_bounds (hv : 0 < v) :
    10 ^ q ≤ (significant q v).1 ∧ (significant q v).1 < 10 ^ (q + 1) := by
  let e := Int.log 10 v
  let x := v * 10 ^ ((q : ℤ) - e)
  -- the number is scaled so that its digits are in front of the point
  have hscale : (0 : ℚ≥0) < 10 ^ ((q : ℤ) - e) := zpow_pos (by norm_num) _
  have hlow : ((10 ^ q : ℕ) : ℚ≥0) ≤ x := by
    have hlog : (10 : ℚ≥0) ^ e ≤ v := Int.zpow_log_le_self (by norm_num) hv
    calc ((10 ^ q : ℕ) : ℚ≥0)
        = 10 ^ e * 10 ^ ((q : ℤ) - e) := by
          rw [← zpow_add₀ (by norm_num), add_sub_cancel, zpow_natCast, Nat.cast_pow, Nat.cast_ofNat]
      _ ≤ x := mul_le_mul_of_nonneg_right hlog hscale.le
  have hhigh : x < ((10 ^ (q + 1) : ℕ) : ℚ≥0) := by
    have hlog : v < (10 : ℚ≥0) ^ (e + 1) := Int.lt_zpow_succ_log_self (by norm_num) v
    calc x < 10 ^ (e + 1) * 10 ^ ((q : ℤ) - e) := mul_lt_mul_of_pos_right hlog hscale
      _ = ((10 ^ (q + 1) : ℕ) : ℚ≥0) := by
          rw [← zpow_add₀ (by norm_num), show e + 1 + ((q : ℤ) - e) = ((q + 1 : ℕ) : ℤ) by
            push_cast; ring, zpow_natCast, Nat.cast_pow, Nat.cast_ofNat]
  have hfloor : 10 ^ q ≤ roundHalfEven x := (Nat.le_floor hlow).trans floor_le_roundHalfEven
  have hceil : roundHalfEven x ≤ 10 ^ (q + 1) :=
    roundHalfEven_le_floor.trans (Nat.floor_lt' (by positivity) |>.mpr hhigh)
  rw [significant]
  split_ifs with hcarry
  · exact ⟨le_rfl, Nat.pow_lt_pow_right (by norm_num) (Nat.lt_succ_self q)⟩
  · exact ⟨hfloor, lt_of_le_of_ne hceil hcarry⟩

/-- A number with as many digits has these digits. -/
theorem significant_eq (hlow : 10 ^ q ≤ m) (hhigh : m < 10 ^ (q + 1)) :
    significant q (m * 10 ^ (e - q)) = (m, e) := by
  have hscale : (0 : ℚ≥0) < 10 ^ (e - q) := zpow_pos (by norm_num) _
  have hpos : (0 : ℚ≥0) < m * 10 ^ (e - q) :=
    mul_pos (Nat.cast_pos.mpr ((Nat.pow_pos (by norm_num)).trans_le hlow)) hscale
  -- there are as many digits as there should be, so the exponent is that of the first one
  have hlog : Int.log 10 ((m : ℚ≥0) * 10 ^ (e - q)) = e := by
    refine le_antisymm (Int.lt_add_one_iff.mp ?_) ?_
    · rw [← Int.lt_zpow_iff_log_lt (by norm_num) hpos]
      calc (m : ℚ≥0) * 10 ^ (e - q) < 10 ^ (q + 1) * 10 ^ (e - q) :=
            mul_lt_mul_of_pos_right (by exact_mod_cast hhigh) hscale
        _ = 10 ^ (e + 1) := by
            rw [← zpow_natCast, ← zpow_add₀ (by norm_num)]
            congr 1
            push_cast
            ring
    · rw [← Int.zpow_le_iff_le_log (by norm_num) hpos]
      calc (10 : ℚ≥0) ^ e = 10 ^ q * 10 ^ (e - q) := by
            rw [← zpow_natCast, ← zpow_add₀ (by norm_num)]
            congr 1
            ring
        _ ≤ m * 10 ^ (e - q) := mul_le_mul_of_nonneg_right (by exact_mod_cast hlow) hscale.le
  -- and nothing is left to be rounded
  have hdigits : (m : ℚ≥0) * 10 ^ (e - q) * 10 ^ ((q : ℤ) - e) = m := by
    rw [mul_assoc, ← zpow_add₀ (by norm_num), sub_add_sub_cancel', sub_self, zpow_zero, mul_one]
  rw [significant, hlog, hdigits, roundHalfEven_natCast, if_neg hhigh.ne]

theorem rounded_pos (hv : 0 < v) : 0 < rounded q v := by
  rw [rounded, if_neg hv.ne']
  have hm : 0 < (significant q v).1 :=
    (Nat.pow_pos (by norm_num)).trans_le (significant_bounds hv).1
  exact mul_pos (Nat.cast_pos.mpr hm) (zpow_pos (by norm_num) _)

theorem rounded_eq_zero : rounded q v = 0 ↔ v = 0 := by
  refine ⟨fun h => ?_, fun hv => if_pos hv⟩
  by_contra hv
  exact (rounded_pos (pos_iff_ne_zero.mpr hv)).ne' h

theorem significant_rounded (hv : 0 < v) : significant q (rounded q v) = significant q v := by
  obtain ⟨hlow, hhigh⟩ := significant_bounds (q := q) hv
  rw [rounded, if_neg hv.ne']
  exact significant_eq hlow hhigh

/-- **Rounding.** -/
theorem rounded_rounded : rounded q (rounded q v) = rounded q v := by
  rcases eq_zero_or_pos v with rfl | hv
  · rw [rounded_eq_zero.mpr (rounded_eq_zero.mpr rfl), rounded_eq_zero.mpr rfl]
  · rw [rounded, if_neg (rounded_pos hv).ne', significant_rounded hv, rounded, if_neg hv.ne']

end

/-! ### Numbers -/

/-- What is left of a fraction without the zeros at its end. -/
def trimmed (fraction : List Char) : List Char :=
  fraction.rdropWhile (· = '0')

/-- An exponent is printed with two digits at least. -/
def exponentDigits (e : ℤ) : List Char :=
  if e.natAbs < 10 then '0' :: Nat.toDigits 10 e.natAbs else Nat.toDigits 10 e.natAbs

/-- The characters with which a number is printed. -/
def shown (q : ℕ) (negative : Bool) (v : ℚ≥0) : Numeral :=
  if v = 0 then ⟨negative, ['0'], [], none⟩
  else
    let (m, e) := significant q v
    let digits := Nat.toDigits 10 m
    -- the exponent is shown only if it is small or as large as the number of digits
    if e < -4 ∨ q < e then
      ⟨negative, digits.take 1, trimmed (digits.drop 1), some (e < 0, exponentDigits e)⟩
    else if 0 ≤ e then
      ⟨negative, digits.take (e.toNat + 1), trimmed (digits.drop (e.toNat + 1)), none⟩
    else ⟨negative, ['0'], trimmed (List.replicate (-e - 1).toNat '0' ++ digits), none⟩

/-- A number with its sign. -/
def signed (negative : Bool) (v : ℚ≥0) : ℚ :=
  if negative then -v else v

section

variable {negative : Bool} {v : ℚ≥0} {m q : ℕ} {e : ℤ} {whole fraction : List Char}
  {exponent : Option (Bool × List Char)}

theorem exists_eq_trimmed_append (fraction : List Char) :
    ∃ k, fraction = trimmed fraction ++ List.replicate k '0' := by
  induction fraction using List.reverseRecOn with
  | nil => exact ⟨0, rfl⟩
  | append_singleton fraction c ih =>
    by_cases hc : c = '0'
    · obtain ⟨k, hk⟩ := ih
      refine ⟨k + 1, ?_⟩
      rw [trimmed, List.rdropWhile_concat_pos _ _ _ (by simpa using hc), List.replicate_succ',
        ← List.append_assoc, ← trimmed, ← hk, hc]
    · refine ⟨0, ?_⟩
      rw [trimmed, List.rdropWhile_concat_neg _ _ _ (by simpa using hc), List.replicate_zero,
        List.append_nil]

theorem value_mk (negative : Bool) (whole fraction : List Char)
    (exponent : Option (Bool × List Char)) :
    (⟨negative, whole, fraction, exponent⟩ : Numeral).value =
      signed negative (Nat.ofDigitChars 10 (whole ++ fraction) 0 *
        10 ^ (Numeral.lastExponent ⟨negative, whole, [], exponent⟩ - fraction.length)) := by
  cases negative <;> simp [Numeral.value, signed, Numeral.lastExponent]

/-- Zeros at the end of the fraction do not count. -/
theorem value_trimmed (negative : Bool) (whole fraction : List Char)
    (exponent : Option (Bool × List Char)) :
    (⟨negative, whole, trimmed fraction, exponent⟩ : Numeral).value =
      (⟨negative, whole, fraction, exponent⟩ : Numeral).value := by
  obtain ⟨k, hk⟩ := exists_eq_trimmed_append fraction
  -- a zero at the end multiplies the digits by ten, and the last exponent is one less
  have hdigits : Nat.ofDigitChars 10 (whole ++ fraction) 0 =
      10 ^ k * Nat.ofDigitChars 10 (whole ++ trimmed fraction) 0 := by
    conv_lhs => rw [hk]
    rw [← List.append_assoc, Nat.ofDigitChars_append, Nat.ofDigitChars_replicate_zero]
  have hlength : (fraction.length : ℤ) = (trimmed fraction).length + k := by
    conv_lhs => rw [hk]
    rw [List.length_append, List.length_replicate, Nat.cast_add]
  rw [value_mk, value_mk, hdigits, hlength, Nat.cast_mul, Nat.cast_pow, Nat.cast_ofNat,
    ← sub_sub, zpow_sub₀ (by norm_num) _ (k : ℤ), zpow_natCast]
  congr 1
  field_simp

theorem value_of_digits (negative : Bool)
    (hdigits : Nat.ofDigitChars 10 (whole ++ fraction) 0 = m)
    (hexponent : Numeral.lastExponent ⟨negative, whole, [], exponent⟩ - fraction.length = e - q) :
    (⟨negative, whole, trimmed fraction, exponent⟩ : Numeral).value =
      signed negative (m * 10 ^ (e - q)) := by
  rw [value_trimmed, value_mk, hdigits, hexponent]

theorem length_toDigits (hlow : 10 ^ q ≤ m) (hhigh : m < 10 ^ (q + 1)) :
    (Nat.toDigits 10 m).length = q + 1 := by
  have hle : (Nat.toDigits 10 m).length ≤ q + 1 :=
    (Nat.length_toDigits_le_iff (by norm_num) (Nat.succ_pos q)).mpr hhigh
  have hlt : q < (Nat.toDigits 10 m).length := by
    rcases Nat.eq_zero_or_pos q with rfl | hq
    · exact Nat.length_toDigits_pos
    · by_contra hq'
      -- fewer digits would make a smaller number
      have hlt := (Nat.length_toDigits_le_iff (by norm_num) hq).mp (Nat.le_of_not_lt hq')
      exact absurd hlt hlow.not_gt
  omega

theorem ofDigitChars_exponentDigits (e : ℤ) :
    Nat.ofDigitChars 10 (exponentDigits e) 0 = e.natAbs := by
  rw [exponentDigits]
  split_ifs
  · exact Nat.ofDigitChars_ten_toDigits
  · exact Nat.ofDigitChars_ten_toDigits

/-- **Numbers.** -/
theorem value_shown (q : ℕ) (negative : Bool) (v : ℚ≥0) :
    (shown q negative v).value = signed negative (rounded q v) := by
  rcases eq_zero_or_pos v with rfl | hv
  · rw [shown, if_pos rfl, rounded, if_pos rfl, value_mk]
    simp [Nat.ofDigitChars]
  obtain ⟨hlow, hhigh⟩ := significant_bounds (q := q) hv
  rw [shown, if_neg hv.ne', rounded, if_neg hv.ne']
  rcases hsignificant : significant q v with ⟨m, e⟩
  rw [hsignificant] at hlow hhigh
  have hlength := length_toDigits hlow hhigh
  have hvalue : Nat.ofDigitChars 10 (Nat.toDigits 10 m) 0 = m := Nat.ofDigitChars_ten_toDigits
  dsimp only
  split_ifs with hscientific hwhole
  · refine value_of_digits negative ?_ ?_
    · rw [List.take_append_drop, hvalue]
    · simp only [Numeral.lastExponent, ofDigitChars_exponentDigits, List.length_drop, hlength,
        List.length_nil, decide_eq_true_eq]
      split_ifs <;> omega
  · refine value_of_digits negative ?_ ?_
    · rw [List.take_append_drop, hvalue]
    · simp only [Numeral.lastExponent, List.length_drop, hlength, List.length_nil]
      omega
  · refine value_of_digits negative ?_ ?_
    · rw [List.singleton_append, ← List.cons_append, ← List.replicate_succ,
        Nat.ofDigitChars_append, Nat.ofDigitChars_replicate_zero, Nat.mul_zero, hvalue]
    · simp only [Numeral.lastExponent, List.length_append, List.length_replicate, hlength,
        List.length_nil]
      omega

end

/-! ### Texts -/

namespace Numeral

/-- A sign is only printed for negative numbers. -/
def signText (negative : Bool) : List Char :=
  if negative then ['-'] else []

def fractionText (fraction : List Char) : List Char :=
  if fraction = [] then [] else '.' :: fraction

def exponentText : Option (Bool × List Char) → List Char
  | none => []
  | some (down, digits) => 'e' :: (if down then '-' else '+') :: digits

/-- The characters of a number in a row. -/
def text (numeral : Numeral) : List Char :=
  signText numeral.negative ++ (numeral.whole ++
    (fractionText numeral.fraction ++ exponentText numeral.exponent))

/-- A fraction at the front of a text, and what follows it. -/
def splitFraction : List Char → List Char × List Char
  | '.' :: text => (text.takeWhile Char.isDigit, text.dropWhile Char.isDigit)
  | text => ([], text)

/-- An exponent at the front of a text that follows some digits, and what follows it. -/
def splitExponent (digits : List Char) : List Char → Option (Bool × List Char) × List Char
  | c :: rest =>
    if (c = 'e' ∨ c = 'E') ∧ digits ≠ [] then
      let (down, rest) := TextStream.splitSign rest
      (some (down, rest.takeWhile Char.isDigit), rest.dropWhile Char.isDigit)
    else (none, c :: rest)
  | [] => (none, [])

/-- There are digits where they should be, and nothing else. -/
structure Printable (numeral : Numeral) : Prop where
  whole_ne_nil : numeral.whole ≠ []
  whole : ∀ c ∈ numeral.whole, c.isDigit = true
  fraction : ∀ c ∈ numeral.fraction, c.isDigit = true
  exponent : ∀ down digits, numeral.exponent = some (down, digits) →
    digits ≠ [] ∧ ∀ c ∈ digits, c.isDigit = true

end Numeral

section

open TextStream Numeral

variable {numeral : Numeral} {digits fraction rest : List Char} {c : Char} {q : ℕ} {v : ℚ≥0}

theorem takeWhile_digits (hdigits : ∀ d ∈ digits, d.isDigit = true)
    (hrest : ∀ d ∈ rest.head?, d.isDigit = false) :
    (digits ++ rest).takeWhile Char.isDigit = digits ∧
      (digits ++ rest).dropWhile Char.isDigit = rest := by
  rw [List.takeWhile_append_of_pos hdigits, List.dropWhile_append_of_pos hdigits]
  cases rest with
  | nil => exact ⟨List.append_nil _, rfl⟩
  | cons d rest =>
    have hd : ¬ d.isDigit = true := by simp [hrest d rfl]
    rw [List.takeWhile_cons_of_neg hd, List.dropWhile_cons_of_neg hd, List.append_nil]
    exact ⟨rfl, rfl⟩

theorem splitSign_signText (negative : Bool) (hdigits : ∀ d ∈ digits, d.isDigit = true)
    (hne : digits ≠ []) :
    splitSign (signText negative ++ (digits ++ rest)) = (negative, digits ++ rest) := by
  cases negative with
  | true => rfl
  | false =>
    obtain ⟨d, digits, rfl⟩ := List.exists_cons_of_ne_nil hne
    exact splitSign_of_isDigit (hdigits d List.mem_cons_self)

theorem not_isDigit_of_isSpace (hc : isSpace c = true) : c.isDigit = false := by
  by_contra hdigit
  rw [isSpace_of_isDigit (Bool.of_not_eq_false hdigit)] at hc
  exact Bool.false_ne_true hc

/-- The parts of a number are scanned one after another. -/
theorem scan_eq (text : List Char) : scan text =
    let sign := splitSign text
    let whole := sign.2.takeWhile Char.isDigit
    let fraction := splitFraction (sign.2.dropWhile Char.isDigit)
    let exponent := splitExponent (whole ++ fraction.1) fraction.2
    (⟨sign.1, whole, fraction.1, exponent.1⟩, exponent.2) := by
  let sign := splitSign text
  let whole := sign.2.takeWhile Char.isDigit
  let fraction := splitFraction (sign.2.dropWhile Char.isDigit)
  have hscan : scan text =
      match fraction.2 with
      | c :: rest =>
        if (c = 'e' ∨ c = 'E') ∧ whole ++ fraction.1 ≠ [] then
          (⟨sign.1, whole, fraction.1,
            some ((splitSign rest).1, (splitSign rest).2.takeWhile Char.isDigit)⟩,
            (splitSign rest).2.dropWhile Char.isDigit)
        else (⟨sign.1, whole, fraction.1, none⟩, c :: rest)
      | [] => (⟨sign.1, whole, fraction.1, none⟩, []) := rfl
  rw [hscan]
  change _ = ((⟨sign.1, whole, fraction.1, (splitExponent (whole ++ fraction.1) fraction.2).1⟩ :
    Numeral), (splitExponent (whole ++ fraction.1) fraction.2).2)
  generalize fraction.2 = tail
  cases tail with
  | nil => rfl
  | cons c rest =>
    rw [splitExponent]
    dsimp only
    split_ifs <;> rfl

theorem splitFraction_fractionText (hfraction : ∀ d ∈ fraction, d.isDigit = true)
    (hrest : ∀ d ∈ rest.head?, d.isDigit = false ∧ d ≠ '.') :
    splitFraction (fractionText fraction ++ rest) = (fraction, rest) := by
  rw [fractionText]
  split_ifs with hempty
  · rw [List.nil_append, hempty]
    unfold splitFraction
    split
    · exact absurd rfl (hrest '.' rfl).2
    · rfl
  · obtain ⟨htake, hdrop⟩ := takeWhile_digits hfraction fun d hd => (hrest d hd).1
    exact congrArg₂ Prod.mk htake hdrop

theorem splitExponent_exponentText {exponent : Option (Bool × List Char)}
    (hexponent : ∀ down digits, exponent = some (down, digits) →
      digits ≠ [] ∧ ∀ c ∈ digits, c.isDigit = true)
    (hne : digits ≠ []) (hc : isSpace c = true) :
    splitExponent digits (exponentText exponent ++ c :: rest) = (exponent, c :: rest) := by
  cases exponent with
  | none =>
    -- white space is not the mark of an exponent
    have hce : ¬ (c = 'e' ∨ c = 'E') := by
      rintro (rfl | rfl)
      · exact absurd hc (by decide)
      · exact absurd hc (by decide)
    exact if_neg fun h => hce h.1
  | some e =>
    obtain ⟨down, exponentDigits⟩ := e
    obtain ⟨-, hdigits⟩ := hexponent down exponentDigits rfl
    have hbehind : ∀ d ∈ (c :: rest).head?, d.isDigit = false := by
      simp [not_isDigit_of_isSpace hc]
    obtain ⟨htake, hdrop⟩ := takeWhile_digits hdigits hbehind
    have hsplit : splitSign ((if down then '-' else '+') :: (exponentDigits ++ c :: rest)) =
        (down, exponentDigits ++ c :: rest) := by
      cases down <;> rfl
    rw [exponentText, List.cons_append, List.cons_append, splitExponent, if_pos ⟨Or.inl rfl, hne⟩,
      hsplit]
    exact congrArg₂ Prod.mk (congrArg some (congrArg (Prod.mk down) htake)) hdrop

/-- **Texts.** -/
theorem scan_text (h : numeral.Printable) (hc : isSpace c = true) :
    scan (numeral.text ++ c :: rest) = (numeral, c :: rest) := by
  obtain ⟨negative, whole, fraction, exponent⟩ := numeral
  obtain ⟨hne, hwhole, hfraction, hexponent⟩ := h
  have hcdigit := not_isDigit_of_isSpace hc
  have hcdot : c ≠ '.' := by
    rintro rfl
    exact absurd hc (by decide)
  -- what comes behind the fraction neither continues it nor starts it
  have hbehind : ∀ d ∈ (exponentText exponent ++ c :: rest).head?, d.isDigit = false ∧ d ≠ '.' := by
    cases exponent with
    | none => simp [exponentText, hcdigit, hcdot]
    | some e => simp [exponentText]
  have hbehindWhole : ∀ d ∈ (fractionText fraction ++ (exponentText exponent ++ c :: rest)).head?,
      d.isDigit = false := by
    rw [fractionText]
    split_ifs
    · exact fun d hd => (hbehind d hd).1
    · simp
  obtain ⟨htakeWhole, hdropWhole⟩ := takeWhile_digits hwhole hbehindWhole
  have hdigits : whole ++ fraction ≠ [] := fun h => hne (List.append_eq_nil_iff.mp h).1
  rw [scan_eq, text, List.append_assoc, List.append_assoc, List.append_assoc,
    splitSign_signText negative hwhole hne]
  dsimp only at htakeWhole hdropWhole ⊢
  rw [htakeWhole, hdropWhole, splitFraction_fractionText hfraction hbehind]
  dsimp only
  rw [splitExponent_exponentText hexponent hdigits hc]

theorem isDigit_of_mem_digits (n : ℕ) : ∀ c ∈ Nat.toDigits 10 n, c.isDigit = true := fun _ hc =>
  Nat.isDigit_of_mem_toDigits (by decide) (by decide) hc

theorem isDigit_of_mem_trimmed (hfraction : ∀ d ∈ fraction, d.isDigit = true) :
    ∀ d ∈ trimmed fraction, d.isDigit = true := fun d hd =>
  hfraction d ((List.rdropWhile_prefix _ fraction).subset hd)

theorem printable_shown (q : ℕ) (negative : Bool) (v : ℚ≥0) : (shown q negative v).Printable := by
  rw [shown]
  split_ifs with hv
  · exact ⟨by simp, by simp, by simp, by simp⟩
  rcases significant q v with ⟨m, e⟩
  have hdigits := isDigit_of_mem_digits m
  have hne : Nat.toDigits 10 m ≠ [] := Nat.toDigits_ne_nil
  dsimp only
  split_ifs with hscientific hwhole
  · refine ⟨by simp [hne], fun c hc => hdigits c (List.mem_of_mem_take hc),
      isDigit_of_mem_trimmed fun c hc => hdigits c (List.mem_of_mem_drop hc), ?_⟩
    rintro down digits ⟨⟩
    rw [exponentDigits]
    split_ifs
    · exact ⟨List.cons_ne_nil _ _, List.forall_mem_cons.mpr ⟨by decide, isDigit_of_mem_digits _⟩⟩
    · exact ⟨Nat.toDigits_ne_nil, isDigit_of_mem_digits _⟩
  · exact ⟨by simp [hne], fun c hc => hdigits c (List.mem_of_mem_take hc),
      isDigit_of_mem_trimmed fun c hc => hdigits c (List.mem_of_mem_drop hc), by simp⟩
  · refine ⟨by simp, by simp, isDigit_of_mem_trimmed (List.forall_mem_append.mpr ⟨?_, hdigits⟩),
      by simp⟩
    exact fun c hc => (List.eq_of_mem_replicate hc).symm ▸ rfl

/-- A number starts with its sign or with a digit. -/
theorem Numeral.Printable.exists_cons_text (h : numeral.Printable) :
    ∃ d text, numeral.text = d :: text ∧ isSpace d = false := by
  rw [Numeral.text]
  cases numeral.negative with
  | true => exact ⟨'-', _, rfl, by decide⟩
  | false =>
    obtain ⟨d, digits, hwhole⟩ := List.exists_cons_of_ne_nil h.whole_ne_nil
    refine ⟨d, _, by rw [hwhole]; rfl, isSpace_of_isDigit (h.whole d ?_)⟩
    rw [hwhole]
    exact List.mem_cons_self

theorem Numeral.Printable.wellFormed (h : numeral.Printable) : numeral.wellFormed = true := by
  have hexponent : (numeral.exponent.all fun e => e.2 ≠ []) = true := by
    rw [Option.all_eq_true]
    rintro ⟨down, digits⟩ he
    exact decide_eq_true (h.exponent down digits he).1
  have hdigits : numeral.whole ++ numeral.fraction ≠ [] := fun hnil =>
    h.whole_ne_nil (List.append_eq_nil_iff.mp hnil).1
  rw [Numeral.wellFormed, hexponent, Bool.and_true]
  exact decide_eq_true hdigits

end

/-! ### Types -/

/-- What a floating-point value is without its sign. -/
inductive Magnitude
  | finite (v : ℚ≥0)
  | infinite
  | nan

/-- A number type that can be printed in decimal. -/
class Printed (α : Type u) where
  /-- Whether the sign is set, and the rest. -/
  parts : α → Bool × Magnitude

/-- Every value is finite. -/
instance : Printed ℚ where
  parts x := (decide (x < 0), .finite (Rat.nnabs x))

section

variable {α : Type} [Printed α] {q : ℕ}

/-- `operator<<` for a floating-point type. -/
def printReal (q : ℕ) (a : α) : List Char :=
  match Printed.parts a with
  | (negative, .finite v) => (shown q negative v).text
  | (negative, .infinite) => Numeral.signText negative ++ ['i', 'n', 'f']
  | (negative, .nan) => Numeral.signText negative ++ ['n', 'a', 'n']

/-- A value is neither infinite nor not a number. -/
def IsFinite (a : α) : Prop :=
  ∃ negative v, Printed.parts a = (negative, .finite v)

/-- Two values are the same number as far as the digits go that are printed. -/
def PrintsAlike (q : ℕ) (a b : α) : Prop :=
  ∃ negative v w, Printed.parts a = (negative, .finite v) ∧
    Printed.parts b = (negative, .finite w) ∧ rounded q v = rounded q w

variable [Decimal α]

/-- The value that is read where a value has been printed. -/
def reread (q : ℕ) (a : α) : α :=
  match Printed.parts a with
  | (negative, .finite v) => (Decimal.ofNumeral (shown q negative v)).1
  | _ => Decimal.zero

variable (α q) in
/-- Whatever is read is finite, and a number with the digits that are printed, in the range of the
type, still has these digits when it has been read. -/
structure KeepsDigits : Prop where
  finite_zero : IsFinite (Decimal.zero : α)
  finite_ofNumeral : ∀ numeral, IsFinite (Decimal.ofNumeral numeral : α × Bool).1
  keeps : ∀ {a : α} {negative v}, Printed.parts a = (negative, .finite v) →
    ∀ numeral : Numeral, numeral.wellFormed = true → numeral.negative = negative →
      numeral.value = signed negative (rounded q v) →
        ∃ b, Decimal.ofNumeral numeral = (b, true) ∧ PrintsAlike q b a

omit [Printed α] [Decimal α] in
theorem parts_signed {negative : Bool} {v : ℚ≥0} (h : negative = true → 0 < v) :
    Printed.parts (signed negative v) = (negative, .finite v) := by
  have habs : Rat.nnabs (signed negative v) = v := by
    rw [NNRat.ext_iff, Rat.coe_nnabs, signed]
    split_ifs
    · rw [abs_neg, abs_of_nonneg v.coe_nonneg]
    · exact abs_of_nonneg v.coe_nonneg
  have hsign : decide (signed negative v < 0) = negative := by
    cases negative with
    | true => exact decide_eq_true (neg_lt_zero.mpr (NNRat.coe_pos.mpr (h rfl)))
    | false => exact decide_eq_false v.coe_nonneg.not_gt
  exact Prod.ext hsign (congrArg Magnitude.finite habs)

/-- Rational numbers are read as they are printed. -/
theorem keepsDigits_rat (q : ℕ) : KeepsDigits ℚ q where
  finite_zero := ⟨_, _, rfl⟩
  finite_ofNumeral _ := ⟨_, _, rfl⟩
  keeps := by
    rintro a negative v hparts numeral - - hvalue
    refine ⟨numeral.value, rfl, negative, rounded q v, v, ?_, hparts, rounded_rounded⟩
    rw [hvalue]
    -- the sign of a rounded number is still seen, as it is not rounded to zero
    refine parts_signed fun hneg => rounded_pos ?_
    obtain ⟨hsign, habs⟩ := Prod.mk.inj hparts
    obtain rfl := Magnitude.finite.inj habs
    rw [hneg, decide_eq_true_eq] at hsign
    rw [← NNRat.coe_pos, Rat.coe_nnabs]
    exact abs_pos.mpr hsign.ne

end

/-! ### Printed and read -/

section

open TextStream

variable {α : Type} [Decimal α] [Printed α] {q n : ℕ} {a b : α} {c : Char} {rest : List Char}

theorem shown_rounded (negative : Bool) (v : ℚ≥0) :
    shown q negative (rounded q v) = shown q negative v := by
  rcases eq_zero_or_pos v with rfl | hv
  · rw [rounded, if_pos rfl]
  · rw [shown, shown, if_neg (rounded_pos hv).ne', if_neg hv.ne', significant_rounded hv]

theorem shown_congr {negative : Bool} {v w : ℚ≥0} (h : rounded q v = rounded q w) :
    shown q negative v = shown q negative w := by
  rw [← shown_rounded, h, shown_rounded]

omit [Decimal α] in
theorem PrintsAlike.printReal_eq (h : PrintsAlike q a b) : printReal q a = printReal q b := by
  obtain ⟨negative, v, w, ha, hb, hvw⟩ := h
  rw [printReal, ha, printReal, hb]
  exact congrArg Numeral.text (shown_congr hvw)

theorem exists_ofNumeral_shown (hα : KeepsDigits α q) {negative : Bool} {v : ℚ≥0}
    (ha : Printed.parts a = (negative, .finite v)) :
    Decimal.ofNumeral (shown q negative v) = (reread q a, true) ∧ PrintsAlike q (reread q a) a := by
  have hnegative : (shown q negative v).negative = negative := by
    rw [shown]
    split_ifs
    · rfl
    · rcases significant q v with ⟨m, e⟩
      dsimp only
      split_ifs <;> rfl
  obtain ⟨b, hb, hab⟩ := hα.keeps ha (shown q negative v) (printable_shown q negative v).wellFormed
    hnegative (value_shown q negative v)
  -- what is read depends on the characters only
  have hreread : reread q a = b := by
    rw [reread, ha]
    exact congrArg Prod.fst hb
  rw [hreread]
  exact ⟨hb, hab⟩

theorem printsAlike_reread (hα : KeepsDigits α q) (ha : IsFinite a) :
    PrintsAlike q (reread q a) a := by
  obtain ⟨negative, v, hparts⟩ := ha
  exact (exists_ofNumeral_shown hα hparts).2

omit [Printed α] in
/-- White space before a number makes no difference. -/
theorem decimals_space (hc : isSpace c = true) :
    decimals α n (c :: rest) = decimals α n rest := by
  cases n with
  | zero => rfl
  | succ n => rw [decimals, decimals, List.dropWhile_cons_of_pos hc]

/-- A value that has been printed is the next one that is read. -/
theorem decimals_printReal (hα : KeepsDigits α q) (ha : IsFinite a) (hc : isSpace c = true) :
    decimals α (n + 1) (printReal q a ++ c :: rest) =
      (decimals α n (c :: rest)).map (reread q a :: ·) := by
  obtain ⟨negative, v, hparts⟩ := ha
  obtain ⟨hvalue, -⟩ := exists_ofNumeral_shown hα hparts
  have hprintable := printable_shown q negative v
  have hscan : Numeral.scan ((shown q negative v).text ++ c :: rest) =
      (shown q negative v, c :: rest) := scan_text hprintable hc
  have hprint : printReal q a = (shown q negative v).text := by rw [printReal, hparts]
  obtain ⟨d, text, htext, hd⟩ := hprintable.exists_cons_text
  rw [htext, List.cons_append] at hscan
  rw [hprint, htext, List.cons_append, decimals, List.dropWhile_cons_of_neg (by simp [hd])]
  simp only [hscan, hvalue, hprintable.wellFormed]
  rfl

/-- **Lines.** -/
theorem decimals_lines (hα : KeepsDigits α q) (values : List α)
    (hvalues : ∀ a ∈ values, IsFinite a) :
    decimals α values.length (values.flatMap fun a => printReal q a ++ ['\n']) =
      some (values.map (reread q)) := by
  induction values with
  | nil => rfl
  | cons a values ih =>
    obtain ⟨ha, hvalues⟩ := List.forall_mem_cons.mp hvalues
    have hspace : isSpace '\n' = true := by decide
    rw [List.length_cons, List.flatMap_cons, List.append_assoc, List.singleton_append,
      decimals_printReal hα ha hspace, decimals_space hspace, ih hvalues]
    rfl

end

end Thanos
