import Mathlib.Algebra.Field.Rat
import Mathlib.Tactic.Push
import NameInference.Proofs.Inference.Answers
import NameInference.Proofs.Token.Numerals

/-!
# What numeric literals denote

Literals keep their text, and whether a number is zero is read off that text. Here texts denote
exact rational numbers.

* `Number.value`: the number that a text with an optional minus sign denotes.
* `Number.isNonzero_iff`: the test on the text tells whether that number is zero.
* `Infer.evalUnary_sign`: a sign before a literal gives the literal of the number with that sign.
-/

namespace NameInference

open List

variable {text : Text}

section Bytes

variable {b : UInt8}

theorem isDecimal_excludes (h : isDecimal b = true) :
    isImaginary b = false ∧ isExponentLetter b = false ∧ b ≠ 0x2E ∧ Lexeme.isSign b = false := by
  rw [isDecimal, Byte.isDigit] at h
  rw [isImaginary, isExponentLetter, Lexeme.isSign]
  grind

theorem isBaseLetter_excludes (h : Lexeme.isBaseLetter b = true) :
    isDecimal b = false ∧ isImaginary b = false ∧ isExponentLetter b = false ∧ b ≠ 0x2E ∧
      Lexeme.isSign b = false := by
  have hcases : b = 0x78 ∨ b = 0x58 ∨ b = 0x6F ∨ b = 0x4F ∨ b = 0x62 ∨ b = 0x42 := by
    simpa [Lexeme.isBaseLetter] using h
  rcases hcases with rfl | rfl | rfl | rfl | rfl | rfl <;> decide

theorem not_isImaginary_of_isHexadecimal (h : isHexadecimal b = true) : isImaginary b = false := by
  rw [isHexadecimal, Byte.isHexDigit, Byte.isDigit] at h
  rw [isImaginary]
  grind

/-- A hexadecimal digit counts unless it is zero. -/
theorem counts_iff_of_isHexadecimal (h : isHexadecimal b = true) :
    b ≠ 0x30 ∧ b ≠ 0x5F ↔ b ≠ 0x5F ∧ Byte.hexValue b ≠ 0 := by
  rw [isHexadecimal, Byte.isHexDigit, Byte.isDigit] at h
  rw [Byte.hexValue, Byte.isDigit]
  grind

/-- So does a decimal one. -/
theorem counts_iff_of_isDecimal (h : isDecimal b = true) :
    0x31 ≤ b ∧ b ≤ 0x39 ↔ b ≠ 0x5F ∧ Byte.hexValue b ≠ 0 := by
  rw [isDecimal, Byte.isDigit] at h
  rw [Byte.hexValue, Byte.isDigit]
  grind

end Bytes

namespace Number

/-- The natural number that digits stand for in a base. Underscores do not count. -/
def ofDigits (base : Nat) (digits : Text) : Nat :=
  (digits.filter (· != 0x5F)).foldl (fun n d => n * base + (Byte.hexValue d).toNat) 0

/-- The base that a letter after a leading zero announces. -/
def baseOf (letter : UInt8) : Nat :=
  if letter == 0x78 || letter == 0x58 then 16 else if letter == 0x6F || letter == 0x4F then 8 else 2

/-- The integer that decimal digits with an optional sign stand for. -/
def exponent : Text → Int
  | [] => 0
  | b :: digits =>
    if b == 0x2D then -ofDigits 10 digits else if b == 0x2B then ofDigits 10 digits
    else ofDigits 10 (b :: digits)

/-- The number that a decimal text denotes: its digits, with the point moved by the exponent. The
suffix of an imaginary number does not count. -/
def decimal (text : Text) : ℚ :=
  let real := text.takeWhile (!isImaginary ·)
  let mantissa := real.takeWhile (!isExponentLetter ·)
  let whole := mantissa.takeWhile (· != 0x2E)
  let fraction := mantissa.drop (whole.length + 1)
  let places := (fraction.filter (· != 0x5F)).length
  ofDigits 10 (whole ++ fraction) * 10 ^ (exponent (real.drop (mantissa.length + 1)) - places)

/-- The number that a text without sign denotes. -/
def magnitude (text : Text) : ℚ :=
  if Lexeme.isBased text then ofDigits (baseOf (text.getD 1 0)) (text.drop 2) else decimal text

/-- The number that a text with an optional minus sign denotes. -/
def value (text : Text) : ℚ :=
  if text.head? = some 0x2D then -magnitude text.tail else magnitude text

example : value "0x1_F" = 31 := by decide +kernel
example : value "-12.5_0e-1j" = -5 / 4 := by decide +kernel

theorem foldl_digits_eq_zero {base : Nat} (hbase : 0 < base) (digits : Text) (n : Nat) :
    digits.foldl (fun n d => n * base + (Byte.hexValue d).toNat) n = 0 ↔ n = 0 ∧
      ∀ d ∈ digits, Byte.hexValue d = 0 := by
  induction digits generalizing n with
  | nil => simp
  | cons d digits ih =>
    have hzero : (Byte.hexValue d).toNat = 0 ↔ Byte.hexValue d = 0 := UInt8.toNat_inj (b := 0)
    rw [foldl_cons, ih, Nat.add_eq_zero_iff, Nat.mul_eq_zero, hzero, forall_mem_cons]
    simp [hbase.ne', and_assoc]

/-- Digits stand for zero if all of them are zero. -/
theorem ofDigits_eq_zero {base : Nat} (hbase : 0 < base) (digits : Text) :
    ofDigits base digits = 0 ↔ ∀ d ∈ digits, d ≠ 0x5F → Byte.hexValue d = 0 := by
  rw [ofDigits, foldl_digits_eq_zero hbase]
  simp

theorem baseOf_pos (letter : UInt8) : 0 < baseOf letter := by
  unfold baseOf
  split
  · decide
  · split <;> decide

/-- The text without a sign. -/
def unsigned (text : Text) : Text :=
  match text with
  | 0x2D :: rest | 0x2B :: rest => rest
  | _ => text

/-- The text without the suffix of an imaginary number. -/
def unsuffixed (text : Text) : Text :=
  match text.getLast? with
  | some 0x6A | some 0x4A => text.dropLast
  | _ => text

/-- The test of what is left of a number without sign and suffix. -/
def realIsNonzero (real : Text) : Bool :=
  match real with
  | 0x30 :: base :: digit :: digits =>
    if [0x78, 0x58, 0x6F, 0x4F, 0x62, 0x42].contains base then
      (digit :: digits).any fun b => b != 0x30 && b != 0x5F
    else isNonzero.mantissaIsNonzero real
  | _ => isNonzero.mantissaIsNonzero real

theorem isNonzero_eq (text : Text) : isNonzero text = realIsNonzero (unsuffixed (unsigned text)) :=
  rfl

theorem unsuffixed_of_not_isImaginary (h : ∀ b ∈ text, isImaginary b = false) :
    unsuffixed text = text := by
  unfold unsuffixed
  split
  · next hlast => cases h _ (mem_of_getLast? hlast)
  · next hlast => cases h _ (mem_of_getLast? hlast)
  · rfl

theorem unsuffixed_concat {j : UInt8} (hj : isImaginary j = true) (text : Text) :
    unsuffixed (text ++ [j]) = text := by
  obtain rfl | rfl : j = 0x6A ∨ j = 0x4A := by simpa [isImaginary] using hj
  all_goals simp [unsuffixed]

theorem realIsNonzero_of_not_isBased {real : Text} (h : Lexeme.isBased real = false) :
    realIsNonzero real = isNonzero.mantissaIsNonzero real := by
  unfold realIsNonzero
  split
  · next base digit digits =>
    have hbase : [0x78, 0x58, 0x6F, 0x4F, 0x62, 0x42].contains base = false := h
    rw [hbase]
    rfl
  · rfl

section Based

variable {letter : UInt8} {digits : Text}

theorem realIsNonzero_based (hletter : Lexeme.isBaseLetter letter = true) :
    realIsNonzero (0x30 :: letter :: digits) = digits.any fun b => b != 0x30 && b != 0x5F := by
  cases digits with
  | nil =>
    have hcases : letter = 0x78 ∨ letter = 0x58 ∨ letter = 0x6F ∨ letter = 0x4F ∨ letter = 0x62 ∨
        letter = 0x42 := by
      simpa [Lexeme.isBaseLetter] using hletter
    rcases hcases with rfl | rfl | rfl | rfl | rfl | rfl <;> decide
  | cons digit digits => exact if_pos hletter

theorem magnitude_based (hletter : Lexeme.isBaseLetter letter = true) :
    magnitude (0x30 :: letter :: digits) = ofDigits (baseOf letter) digits := if_pos hletter

theorem realIsNonzero_based_iff (hletter : Lexeme.isBaseLetter letter = true)
    (hdigits : ∀ b ∈ digits, isHexadecimal b = true) :
    realIsNonzero (0x30 :: letter :: digits) = true ↔ magnitude (0x30 :: letter :: digits) ≠ 0 := by
  rw [realIsNonzero_based hletter, magnitude_based hletter, Nat.cast_ne_zero, Ne,
    ofDigits_eq_zero (baseOf_pos letter), any_eq_true]
  push Not
  refine exists_congr fun b => and_congr_right fun hb => ?_
  simpa using counts_iff_of_isHexadecimal (hdigits b hb)

end Based

section Decimal

variable {whole fraction exponent suffix : Text}

theorem takeWhile_append_of_head {p : UInt8 → Bool} {s t : Text} (hs : ∀ b ∈ s, p b = true)
    (ht : ∀ b ∈ t.head?, p b = false) : (s ++ t).takeWhile p = s := by
  rw [takeWhile_append_of_pos hs]
  cases t with
  | nil => simp
  | cons b t => simp [ht b rfl]

variable (h : DecimalParts whole fraction exponent suffix)

include h

theorem mem_mantissa {b : UInt8} (hb : b ∈ whole ++ fraction) :
    isDecimal b = true ∨ b = 0x2E := by
  rcases mem_append.mp hb with hb | hb
  · exact .inl (h.whole b hb)
  · rcases h.fraction with rfl | ⟨digits, rfl, hdigits⟩
    · cases hb
    · exact (mem_cons.mp hb).elim .inr fun hb => .inl (hdigits b hb)

theorem mem_exponent {b : UInt8} (hb : b ∈ exponent) :
    isDecimal b = true ∨ Lexeme.isSign b = true ∨ isExponentLetter b = true := by
  rcases h.exponent with rfl | ⟨e, digits, rfl, he, hdigits⟩
  · cases hb
  · rcases mem_cons.mp hb with rfl | hb
    · exact .inr (.inr he)
    · exact (hdigits b hb).imp_right .inl

theorem head_exponent : ∀ b ∈ exponent.head?, (!isExponentLetter b) = false := by
  rcases h.exponent with rfl | ⟨e, digits, rfl, he, -⟩
  · simp
  · simp [he]

theorem mantissa_not_isExponentLetter : ∀ b ∈ whole ++ fraction, (!isExponentLetter b) = true := by
  intro b hb
  rcases mem_mantissa h hb with hb | rfl
  · simp [(isDecimal_excludes hb).2.1]
  · rfl

/-- Without its suffix, nothing in a number looks like one. -/
theorem real_not_isImaginary : ∀ b ∈ whole ++ fraction ++ exponent, isImaginary b = false := by
  intro b hb
  rcases mem_append.mp hb with hb | hb
  · rcases mem_mantissa h hb with hb | rfl
    · exact (isDecimal_excludes hb).1
    · rfl
  · rcases mem_exponent h hb with hb | hb | hb
    · exact (isDecimal_excludes hb).1
    all_goals
      simp only [Lexeme.isSign, isExponentLetter, Bool.or_eq_true, beq_iff_eq] at hb
      rcases hb with rfl | rfl <;> rfl

/-- No letter of a number in decimal digits announces another base. -/
theorem not_isBased {t : Text}
    (ht : t <+: whole ++ fraction ++ exponent ++ suffix) : Lexeme.isBased t = false := by
  by_contra hbased
  obtain ⟨letter, rest, rfl, hletter⟩ := Lexeme.exists_of_isBased (Bool.not_eq_false _ ▸ hbased)
  obtain ⟨hdecimal, himaginary, hexponent, hpoint, hsign⟩ := isBaseLetter_excludes hletter
  have hmem : letter ∈ whole ++ fraction ++ exponent ++ suffix := ht.subset (by simp)
  rcases mem_append.mp hmem with hmem | hmem
  · rcases mem_append.mp hmem with hmem | hmem
    · rcases mem_mantissa h hmem with hmem | rfl
      · simp [hdecimal] at hmem
      · exact hpoint rfl
    · simpa [hdecimal, hsign, hexponent] using mem_exponent h hmem
  · rcases h.suffix with rfl | ⟨j, rfl, hj⟩
    · cases hmem
    · simp only [mem_singleton] at hmem
      simp [← hmem, himaginary] at hj

theorem takeWhile_mantissa :
    (whole ++ fraction ++ exponent).takeWhile (!isExponentLetter ·) = whole ++ fraction :=
  takeWhile_append_of_head (mantissa_not_isExponentLetter h) (head_exponent h)

/-- The text of a number without its suffix. -/
theorem unsuffixed_decimal :
    unsuffixed (whole ++ fraction ++ exponent ++ suffix) = whole ++ fraction ++ exponent := by
  rcases h.suffix with hsuffix | ⟨j, hsuffix, hj⟩
  · rw [hsuffix, append_nil, unsuffixed_of_not_isImaginary (real_not_isImaginary h)]
  · rw [hsuffix, unsuffixed_concat hj]

theorem realIsNonzero_decimal :
    realIsNonzero (whole ++ fraction ++ exponent) = (whole ++ fraction).any fun b => 0x31 ≤ b &&
    b ≤ 0x39 := by
  have hmantissa : (fun b : UInt8 => b != 0x65 && b != 0x45) = (!isExponentLetter ·) := by
    funext b
    simp [isExponentLetter, bne]
  rw [realIsNonzero_of_not_isBased (not_isBased h (prefix_append _ _)), isNonzero.mantissaIsNonzero,
    hmantissa, takeWhile_mantissa h]

/-- A decimal number is its digits, moved by some places. -/
theorem exists_magnitude_decimal :
    ∃ places : ℤ, magnitude (whole ++ fraction ++ exponent ++ suffix) =
      ofDigits 10 (whole ++ fraction.tail) * 10 ^ places := by
  have hreal : (whole ++ fraction ++ exponent ++ suffix).takeWhile (!isImaginary ·) =
      whole ++ fraction ++ exponent := by
    refine takeWhile_append_of_head (fun b hb => by simp [real_not_isImaginary h b hb]) ?_
    rcases h.suffix with rfl | ⟨j, rfl, hj⟩
    · simp
    · simp [hj]
  have hwhole : (whole ++ fraction).takeWhile (· != 0x2E) = whole := by
    refine takeWhile_append_of_head
      (fun b hb => by simp [(isDecimal_excludes (h.whole b hb)).2.2.1]) ?_
    rcases h.fraction with rfl | ⟨digits, rfl, -⟩ <;> simp
  have hfraction : (whole ++ fraction).drop (whole.length + 1) = fraction.tail := by
    rw [drop_length_add_append, drop_one]
  rw [magnitude, if_neg (Bool.eq_false_iff.mp (not_isBased h prefix_rfl)), decimal]
  simp only [hreal, takeWhile_mantissa h, hwhole, hfraction]
  exact ⟨_, rfl⟩

theorem realIsNonzero_decimal_iff : realIsNonzero (whole ++ fraction ++ exponent) = true ↔
      magnitude (whole ++ fraction ++ exponent ++ suffix) ≠ 0 := by
  obtain ⟨places, hmagnitude⟩ := exists_magnitude_decimal h
  have hscale : (10 : ℚ) ^ places ≠ 0 := zpow_ne_zero places (by decide)
  rw [realIsNonzero_decimal h, hmagnitude, mul_ne_zero_iff, and_iff_left hscale, Nat.cast_ne_zero,
    Ne, ofDigits_eq_zero (by decide), any_eq_true]
  push Not
  have hdigits : ∀ b ∈ whole ++ fraction.tail, isDecimal b = true := by
    rcases h.fraction with rfl | ⟨digits, rfl, hdigits⟩
    · simpa using h.whole
    · exact forall_mem_append.mpr ⟨h.whole, hdigits⟩
  -- The point is no digit that counts.
  have hpoint : (∃ b ∈ whole ++ fraction, 0x31 ≤ b ∧ b ≤ 0x39) ↔
      ∃ b ∈ whole ++ fraction.tail, 0x31 ≤ b ∧ b ≤ 0x39 := by
    rcases h.fraction with rfl | ⟨digits, rfl, -⟩
    · rfl
    · simp only [mem_append, mem_cons, tail_cons, or_and_right, exists_or, exists_eq_left]
      rw [or_iff_right (by decide : ¬ ((0x31 : UInt8) ≤ 0x2E ∧ (0x2E : UInt8) ≤ 0x39))]
  simp only [Bool.and_eq_true, decide_eq_true_eq]
  rw [hpoint]
  exact exists_congr fun b => and_congr_right fun hb => counts_iff_of_isDecimal (hdigits b hb)

end Decimal

/-- The text of a number, perhaps with a minus sign before it. -/
def Signed (text : Text) : Prop := IsNumeral text ∨ ∃ t, text = 0x2D :: t ∧ IsNumeral t

theorem realIsNonzero_iff (h : IsNumeral text) :
    realIsNonzero (unsuffixed text) = true ↔ magnitude text ≠ 0 := by
  cases h with
  | based letter digits hletter hdigits =>
    have hplain : ∀ b ∈ 0x30 :: letter :: digits, isImaginary b = false := by
      simp only [forall_mem_cons]
      exact ⟨rfl, (isBaseLetter_excludes hletter).2.1,
        fun b hb => not_isImaginary_of_isHexadecimal (hdigits b hb)⟩
    rw [unsuffixed_of_not_isImaginary hplain]
    exact realIsNonzero_based_iff hletter hdigits
  | decimal whole fraction exponent suffix h =>
    rw [unsuffixed_decimal h]
    exact realIsNonzero_decimal_iff h

/-- A number does not begin with a sign. -/
theorem head_of_numeral (h : IsNumeral text) : ∀ b ∈ text.head?, Lexeme.isSign b = false := by
  cases h with
  | based letter digits hletter hdigits => simp [Lexeme.isSign]
  | decimal whole fraction exponent suffix h =>
    -- The first part that is not empty begins with none.
    intro b hb
    rcases whole with - | ⟨d, whole⟩
    · rcases h.fraction with rfl | ⟨digits, rfl, -⟩
      · rcases h.exponent with rfl | ⟨e, digits, rfl, he, -⟩
        · rcases h.suffix with rfl | ⟨j, rfl, hj⟩
          · cases hb
          · obtain rfl : j = b := by simpa using hb
            simp only [isImaginary, Bool.or_eq_true, beq_iff_eq] at hj
            rcases hj with rfl | rfl <;> rfl
        · obtain rfl : e = b := by simpa using hb
          simp only [isExponentLetter, Bool.or_eq_true, beq_iff_eq] at he
          rcases he with rfl | rfl <;> rfl
      · obtain rfl : 0x2E = b := by simpa using hb
        rfl
    · obtain rfl : d = b := by simpa using hb
      exact (isDecimal_excludes (h.whole d (by simp))).2.2.2

theorem ne_minus_of_numeral (h : IsNumeral text) : text.head? ≠ some 0x2D := by
  intro hhead
  cases head_of_numeral h 0x2D hhead

theorem unsigned_of_numeral (h : IsNumeral text) : unsigned text = text := by
  unfold unsigned
  split
  · cases head_of_numeral h 0x2D rfl
  · cases head_of_numeral h 0x2B rfl
  · rfl

theorem value_of_numeral (h : IsNumeral text) : value text = magnitude text :=
  if_neg (ne_minus_of_numeral h)

theorem value_minus (text : Text) : value (0x2D :: text) = -magnitude text := if_pos rfl

/-- The test on the text of a number tells whether the number is zero. -/
theorem isNonzero_iff (h : Signed text) : isNonzero text = true ↔ value text ≠ 0 := by
  rw [isNonzero_eq]
  rcases h with h | ⟨text, rfl, h⟩
  · rw [unsigned_of_numeral h, value_of_numeral h]
    exact realIsNonzero_iff h
  · rw [value_minus, neg_ne_zero]
    exact realIsNonzero_iff h

theorem negated_of_numeral (h : IsNumeral text) : negated text = 0x2D :: text := by
  unfold negated
  split
  · cases head_of_numeral h 0x2D rfl
  · rfl

/-- Negation takes the minus sign away if there is one, and puts one there otherwise. -/
theorem negated_signed (h : Signed text) :
    Signed (negated text) ∧ value (negated text) = -value text := by
  rcases h with h | ⟨text, rfl, h⟩
  · rw [negated_of_numeral h, value_minus, value_of_numeral h]
    exact ⟨.inr ⟨text, rfl, h⟩, rfl⟩
  · rw [value_minus, neg_neg]
    exact ⟨.inl h, value_of_numeral h⟩

/-- The number with some signs before it, the innermost first. -/
def withSigns (signs : List Bool) (q : ℚ) : ℚ :=
  signs.foldl (fun q negative => if negative then -q else q) q

theorem withSigns_ne_zero_iff (signs : List Bool) (q : ℚ) : withSigns signs q ≠ 0 ↔ q ≠ 0 := by
  induction signs generalizing q with
  | nil => rfl
  | cons negative signs ih =>
    refine (ih _).trans ?_
    cases negative <;> simp

end Number

namespace Infer

variable {calls : Calls} {s : Session} {type : Text} {id : ValueId} {q : ℚ}

/-- The types of numbers. -/
def numberTypes : List Text := ["int", "float", "complex"]

/-- The handle stands for the literal of a number. -/
structure HoldsNumber (type : Text) (q : ℚ) (id : ValueId) (s : Session) : Prop where
  consistent : s.values.Consistent
  literal : ∃ text, s.values.get? id = some (.compiled type text false) ∧ Number.Signed text ∧
    Number.value text = q

/-- A literal is interned as it is. -/
theorem get?_intern_literal (hs : s.values.Consistent) (type text : Text) :
    (s.intern (.compiled type text false)).2.values.get? (s.intern (.compiled type text false)).1 =
      some (.compiled type text false) := by
  obtain ⟨found, hget, hkey⟩ :=
    Option.map_eq_some_iff.mp (hs.get?_intern (.compiled type text false))
  have hfound : found = .compiled type text false := by
    cases found <;> simp_all [Value.map]
  exact hfound ▸ hget

/-- The literal of a number is made with its text. -/
theorem holdsNumber_intern (hs : s.values.Consistent) (type : Text)
    (htext : Number.Signed text) :
    HoldsNumber type (Number.value text) (s.intern (.compiled type text false)).1
      (s.intern (.compiled type text false)).2 :=
  ⟨hs.intern _, text, get?_intern_literal hs type text, htext, rfl⟩

/-- The operator of a sign. -/
def signOf (negative : Bool) : UnaryOp := if negative then .neg else .pos

theorem evalUnary_signOf (negative : Bool) (operand : ValueSet) :
    evalUnary (signOf negative) operand = collect operand.ids (signedValue negative) := by
  cases negative <;> rfl

theorem signedValue_of_literal (hget : s.values.get? id = some (.compiled type text false))
    (htype : type ∈ numberTypes) (negative : Bool) (calls : Calls) :
    signedValue negative id calls s =
      (if negative then do return .single (← intern (.compiled type (Number.negated text) false))
        else return .single id : Infer ValueSet) calls s := by
  rw [signedValue, bind_of_ok (a := s.values.get? id) (t := s) rfl, hget]
  exact congrFun (congrFun (if_pos (contains_iff_mem.mpr htype)) calls) s

/-- A minus sign before a literal negates its text. -/
theorem evalUnary_literal (hs : s.values.Consistent)
    (hget : s.values.get? id = some (.compiled type text false)) (htype : type ∈ numberTypes)
    (negative : Bool) (calls : Calls) :
    ∃ id' t, evalUnary (signOf negative) (.single id) calls s = (.ok (.single id'), t) ∧
      t.values.Consistent ∧
      t.values.get? id' =
        some (.compiled type (if negative then Number.negated text else text) false) := by
  rw [evalUnary_signOf, ValueSet.single, collect_singleton, signedValue_of_literal hget htype]
  cases negative with
  | false => exact ⟨id, s, rfl, hs, hget⟩
  | true => exact ⟨_, _, rfl, hs.intern _, get?_intern_literal hs type _⟩

/-- A sign before the literal of a number gives the literal of the number with that sign. -/
theorem evalUnary_sign (hs : HoldsNumber type q id s) (htype : type ∈ numberTypes) (negative : Bool)
    (calls : Calls) :
    ∃ id' t, evalUnary (signOf negative) (.single id) calls s = (.ok (.single id'), t) ∧
      HoldsNumber type (if negative then -q else q) id' t := by
  obtain ⟨text, hget, hsigned, rfl⟩ := hs.literal
  obtain ⟨id', t, hrun, ht, hget'⟩ := evalUnary_literal hs.consistent hget htype negative calls
  refine ⟨id', t, hrun, ht, _, hget', ?_⟩
  cases negative with
  | false => exact ⟨hsigned, rfl⟩
  | true => exact Number.negated_signed hsigned

/-- Signs before an operand, the innermost first. -/
def evalSigns (signs : List Bool) (operand : ValueSet) : Infer ValueSet :=
  signs.foldlM (fun set negative => evalUnary (signOf negative) set) operand

/-- Sign after sign. -/
theorem evalSigns_of_number (hs : HoldsNumber type q id s) (htype : type ∈ numberTypes)
    (signs : List Bool) (calls : Calls) :
    ∃ id' t, evalSigns signs (.single id) calls s = (.ok (.single id'), t) ∧
      HoldsNumber type (Number.withSigns signs q) id' t := by
  induction signs generalizing q id s with
  | nil => exact ⟨id, s, rfl, hs⟩
  | cons negative signs ih =>
    obtain ⟨id', t, hrun, ht⟩ := evalUnary_sign hs htype negative calls
    obtain ⟨last, u, hlast, hu⟩ := ih ht
    refine ⟨last, u, ?_, hu⟩
    rw [evalSigns, foldlM_cons, bind_of_ok hrun]
    exact hlast

theorem truthOf_of_number (hs : HoldsNumber type q id s) (htype : type ∈ numberTypes)
    (calls : Calls) :
    truthOf (.single id) calls s = (.ok (some (decide (q ≠ 0))), s) := by
  obtain ⟨text, hget, hsigned, rfl⟩ := hs.literal
  have htruth : Value.truth? (.compiled type text false : Value Place) =
      some (Number.isNonzero text) := by
    have hcases : type = "int" ∨ type = "float" ∨ type = "complex" := by
      simpa [numberTypes] using htype
    simp only [Value.truth?]
    rw [if_neg (by decide), if_pos (by simpa [or_assoc] using hcases)]
  have hnonzero : Number.isNonzero text = decide (Number.value text ≠ 0) := by
    rw [Bool.eq_iff_iff, decide_eq_true_eq]
    exact Number.isNonzero_iff hsigned
  change (Except.ok (commonTruth? [(s.values.get? id).bind Value.truth?]), s) = _
  rw [hget, Option.bind_some, htruth, hnonzero]
  rfl

/-- The truth of numbers is that of what they denote. Wherever a number stands in some sources and
whatever signs are evaluated before its literal, the result is the literal of the number with these
signs, and it is true if the number is not zero and false if it is. -/
theorem truth_of_number {sources : List Source} {tokens : List Token} {token : Token}
    {type : String} (htokens : Source.stackedTokens sources = .ok tokens) (htoken : token ∈ tokens)
    (htype : token.kind.numberType? = some type) (signs : List Bool) (calls : Calls) {s : Session}
    (hs : s.values.Consistent) :
    ∃ id t text, (do evalSigns signs (.single (← makeLiteral type token.text))) calls s =
      (.ok (.single id), t) ∧ t.values.get? id = some (.compiled (Text.ofString type) text false) ∧
      Number.value text = Number.withSigns signs (Number.value token.text) ∧
      truthOf (.single id) calls t = (.ok (some (decide (Number.value token.text ≠ 0))), t) := by
  have hnumeral := Source.numeral_of_mem_stackedTokens htokens htoken (by simp [htype])
  have hnumber : Text.ofString type ∈ numberTypes := by
    unfold TokenKind.numberType? at htype
    split at htype <;> cases htype <;> simp [numberTypes]
  have hmade := holdsNumber_intern hs (Text.ofString type) (.inl hnumeral)
  obtain ⟨id, t, hrun, ht⟩ := evalSigns_of_number hmade hnumber signs calls
  obtain ⟨text, hget, -, hvalue⟩ := ht.literal
  refine ⟨id, t, text, (bind_of_ok rfl).trans hrun, hget, hvalue, ?_⟩
  rw [truthOf_of_number ht hnumber]
  simp only [Number.withSigns_ne_zero_iff]

/-- An imaginary zero with an exponent is false with two signs before it. -/
theorem truth_of_number_imaginary :
    ∃ tokens, Source.stackedTokens [⟨"0_0.0e7j", []⟩] = .ok tokens ∧
      ∃ token ∈ tokens, token.kind = .imag ∧ token.text = "0_0.0e7j" ∧
        ∃ id t, (do evalSigns [true, false] (.single (← makeLiteral "complex" token.text)))
            (engine 0) {} = (.ok (.single id), t) ∧
          truthOf (.single id) (engine 0) t = (.ok (some false), t) := by
  have hfirst : (Source.stackedTokens [⟨"0_0.0e7j", []⟩]).map
      (fun tokens => tokens.head?.map fun token => (token.kind, token.text)) =
        .ok (some (.imag, "0_0.0e7j")) := by decide +kernel
  obtain ⟨tokens, htokens, hhead⟩ := exists_of_map_eq_ok hfirst
  obtain ⟨token, htoken, hsymbol⟩ := Option.map_eq_some_iff.mp hhead
  obtain ⟨hkind, htext⟩ := Prod.mk.inj hsymbol
  have hmem : token ∈ tokens := mem_of_head? htoken
  have hzero : decide (Number.value token.text ≠ 0) = false := by
    rw [htext]
    decide +kernel
  obtain ⟨id, t, text, hrun, -, -, htruth⟩ :=
    truth_of_number htokens hmem (by rw [hkind]; rfl) [true, false] (engine 0)
      (s := {}) Arena.consistent_empty
  exact ⟨tokens, htokens, token, hmem, hkind, htext, id, t, hrun, hzero ▸ htruth⟩

end Infer

end NameInference
