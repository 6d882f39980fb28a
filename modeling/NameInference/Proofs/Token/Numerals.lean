import NameInference.Proofs.Token.Balance
import NameInference.Proofs.Token.Literals

/-!
# The texts of numbers

* `IsNumeral`: the texts that numbers may have, in another base or in decimal digits.
* `Source.numeral_of_mem_stackedTokens`: every number in some sources has such a text.
-/

namespace NameInference

open List

/-- Every token of some sources is layout, a string, or what begins at a byte of a line. -/
theorem Source.stackedTokens_origin {sources : List Source} {tokens : List Token}
    (h : stackedTokens sources = .ok tokens) : ∀ token ∈ tokens, token.Origin := by
  obtain ⟨read, last, rfl, hlast, htracks⟩ := readAllTokens_tracks Layout.Tracks.empty h
  intro token htoken
  rcases mem_append.mp htoken with htoken | htoken
  · obtain ⟨before, after, hsplit⟩ := append_of_mem htoken
    exact (htracks.placed before token after hsplit).origin
  · exact .layout (by rw [mem_singleton.mp htoken, hlast]; rfl)

/-- A decimal digit or an underscore. -/
def isDecimal (b : UInt8) : Bool := Byte.isDigit b || b == 0x5F

/-- A hexadecimal digit or an underscore. -/
def isHexadecimal (b : UInt8) : Bool := Byte.isHexDigit b || b == 0x5F

/-- The letter before an exponent. -/
def isExponentLetter (b : UInt8) : Bool := b == 0x65 || b == 0x45

/-- The suffix of an imaginary number. -/
def isImaginary (b : UInt8) : Bool := b == 0x6A || b == 0x4A

/-- A point and the digits after it, or nothing. -/
def IsFraction (t : Text) : Prop :=
  t = [] ∨ ∃ digits, t = 0x2E :: digits ∧ ∀ b ∈ digits, isDecimal b = true

/-- The letter, the sign and the digits of an exponent, or nothing. -/
def IsExponent (t : Text) : Prop :=
  t = [] ∨ ∃ e digits, t = e :: digits ∧ isExponentLetter e = true ∧
  ∀ b ∈ digits, isDecimal b = true ∨ Lexeme.isSign b = true

/-- The parts of a decimal number. -/
structure DecimalParts (whole fraction exponent suffix : Text) : Prop where
  whole : ∀ b ∈ whole, isDecimal b = true
  fraction : IsFraction fraction
  exponent : IsExponent exponent
  suffix : suffix = [] ∨ ∃ j, suffix = [j] ∧ isImaginary j = true

/-- The texts of numbers: hexadecimal digits after a zero and the letter of a base, or decimal
digits, some of them perhaps after a point, with an optional exponent and an optional suffix. -/
inductive IsNumeral : Text → Prop where
  | based (letter : UInt8) (digits : Text) (hletter : Lexeme.isBaseLetter letter = true)
      (hdigits : ∀ b ∈ digits, isHexadecimal b = true) : IsNumeral (0x30 :: letter :: digits)
  | decimal (whole fraction exponent suffix : Text)
    (h : DecimalParts whole fraction exponent suffix) :
      IsNumeral (whole ++ fraction ++ exponent ++ suffix)

namespace Lexeme

theorem take_digits (isDigit : UInt8 → Bool) (t : Text) :
    t.take (digits isDigit t).length = digits isDigit t :=
  (prefix_iff_eq_take.mp (List.takeWhile_prefix _)).symm

theorem of_mem_digits {isDigit : UInt8 → Bool} {t : Text} {b : UInt8} (h : b ∈ digits isDigit t) :
    (isDigit b || b == 0x5F) = true := all_eq_true.mp all_takeWhile b h

theorem isFraction_take_fractionLength (t : Text) : IsFraction (t.take (fractionLength t)) := by
  fun_cases fractionLength t with
  | case1 rest =>
    refine .inr ⟨digits Byte.isDigit rest, ?_, fun b hb => of_mem_digits hb⟩
    rw [Nat.add_comm, take_succ_cons, take_digits]
  | case2 => exact .inl rfl

theorem take_exponentDigits (t : Text) : ∀ b ∈ t.take (exponentDigits t), isDecimal b = true := by
  intro b hb
  cases t with
  | nil => simp at hb
  | cons d t =>
    rw [exponentDigits] at hb
    split at hb
    · rw [take_digits] at hb
      exact of_mem_digits hb
    · simp at hb

theorem isExponent_take_exponentOf {e : UInt8} {t : Text} (signs : Text)
    (he : isExponentLetter e = true) (hsigns : ∀ s ∈ signs, isSign s = true) :
    IsExponent ((e :: signs ++ t).take (exponentOf (signs.length + 1) (exponentDigits t))) := by
  unfold exponentOf
  split
  · exact .inl rfl
  · refine .inr ⟨e, signs ++ t.take (exponentDigits t), ?_, he, fun b hb => ?_⟩
    · rw [show signs.length + 1 + exponentDigits t = (e :: signs).length +
        exponentDigits t from rfl, take_length_add_append]
      rfl
    · exact (mem_append.mp hb).elim (fun h => .inr (hsigns b h)) fun h =>
        .inl (take_exponentDigits t b h)

theorem isExponent_take_exponentLength (t : Text) : IsExponent (t.take (exponentLength t)) := by
  cases t with
  | nil => exact .inl rfl
  | cons e t =>
    rw [exponentLength_cons]
    split
    · next he =>
      cases t with
      | nil => exact isExponent_take_exponentOf (t := []) [] he (by simp)
      | cons s t =>
        split
        · next hs => exact isExponent_take_exponentOf [s] he (by simpa using hs)
        · exact isExponent_take_exponentOf [] he (by simp)
    · exact .inl rfl

theorem numeral_take_decimal (t : Text) : IsNumeral (t.take (decimal t).2) := by
  have hwhole : ∀ b ∈ t.take (digits Byte.isDigit t).length, isDecimal b = true := by
    rw [take_digits]
    exact fun b hb => of_mem_digits hb
  unfold decimal
  dsimp only
  generalize (digits Byte.isDigit t).length = whole at hwhole ⊢
  have hfraction := isFraction_take_fractionLength (t.drop whole)
  generalize fractionLength (t.drop whole) = fraction at hfraction ⊢
  have hexponent := isExponent_take_exponentLength (t.drop (whole + fraction))
  generalize exponentLength (t.drop (whole + fraction)) = exponent at hexponent ⊢
  split
  · next himaginary =>
    rw [take_add, take_add, take_add]
    refine .decimal _ _ _ _ ⟨hwhole, hfraction, hexponent, .inr ?_⟩
    cases hdrop : t.drop (whole + fraction + exponent) with
    | nil => simp [hdrop, imaginaryNext] at himaginary
    | cons j rest =>
      rw [hdrop] at himaginary
      exact ⟨j, rfl, himaginary⟩
  · rw [take_add, take_add]
    simpa using IsNumeral.decimal _ _ _ [] ⟨hwhole, hfraction, hexponent, .inl rfl⟩

theorem exists_of_isBased {t : Text} (h : isBased t = true) :
    ∃ letter rest, t = 0x30 :: letter :: rest ∧ isBaseLetter letter = true := by
  unfold isBased at h
  split at h
  · exact ⟨_, _, rfl, h⟩
  · cases h

/-- The number at the front of any text is a numeral. -/
theorem numeral_take_number (t : Text) : IsNumeral (t.take (number t).2) := by
  rw [number_eq]
  split
  · next hbased =>
    obtain ⟨letter, rest, rfl, hletter⟩ := exists_of_isBased hbased
    rw [Nat.add_comm, take_succ_cons, take_succ_cons, drop_succ_cons, drop_succ_cons, drop_zero,
      take_digits]
    exact .based letter _ hletter fun b hb => of_mem_digits hb
  · exact numeral_take_decimal t

theorem number_pos {b : UInt8} {rest : Text} (h : startsNumber b rest = true) :
    0 < (number (b :: rest)).2 := by
  have hlength : (digits Byte.isDigit (b :: rest)).length +
      fractionLength ((b :: rest).drop (digits Byte.isDigit (b :: rest)).length) ≤
        (decimal (b :: rest)).2 := by
    unfold decimal
    dsimp only
    split <;> dsimp only <;> omega
  rw [number_eq]
  split
  · exact Nat.add_pos_left Nat.two_pos _
  · refine Nat.lt_of_lt_of_le ?_ hlength
    by_cases hb : Byte.isDigit b = true
    · exact Nat.add_pos_left (by simp [digits, hb]) _
    · obtain rfl : b = 0x2E := by simp_all [startsNumber]
      exact Nat.add_pos_right _ (Nat.add_pos_left Nat.one_pos _)

end Lexeme

namespace TokenKind

/-- The type of the literals that the tokens of a kind stand for, if they are numbers. -/
def numberType? : TokenKind → Option String
  | int => some "int"
  | float => some "float"
  | imag => some "complex"
  | _ => none

end TokenKind

namespace Lexeme

variable {b : UInt8} {rest : Text} {kind : TokenKind} {more : Nat}

theorem numberType?_of_mem_inBytes {table : List (String × TokenKind)}
    (htable : ∀ entry ∈ table, entry.2.numberType? = none) {entry : Text × TokenKind}
    (h : entry ∈ inBytes table) :
    entry.2.numberType? = none := by
  obtain ⟨source, hsource, rfl⟩ := mem_map.mp h
  exact htable source hsource

theorem numberType?_ofWord (h : ofWord b rest = .token kind more) : kind.numberType? = none := by
  obtain ⟨rfl, -⟩ := Lexeme.token.inj h
  cases hfound : (inBytes keywords).lookup (b :: rest.takeWhile continuesName) with
  | none => simp [wordKind, hfound, TokenKind.numberType?]
  | some kind =>
    obtain ⟨before, after, hsplit, -⟩ := lookup_eq_some_iff.mp hfound
    have hmem : (b :: rest.takeWhile continuesName, kind) ∈ inBytes keywords := by simp [hsplit]
    simpa only [wordKind, hfound,
      Option.getD_some] using numberType?_of_mem_inBytes (by decide) hmem

theorem numberType?_ofOperator (h : ofOperator b rest = .token kind more) :
    kind.numberType? = none := by
  unfold ofOperator at h
  split at h
  · next spelling kind' hfound =>
    obtain ⟨rfl, -⟩ := Lexeme.token.inj h
    exact numberType?_of_mem_inBytes (by decide) (mem_of_find?_eq_some hfound)
  · cases h

theorem numberType?_ofQuote {letters : Text} {quote : UInt8}
    (h : ofQuote letters quote rest = .token kind more) :
    kind.numberType? = none := by
  obtain ⟨rfl, -⟩ := ofQuote_cases h
  unfold stringKind
  split <;> rfl

/-- A lexeme that is a number has the text of one. -/
theorem numeral_of_ofBytes (h : ofBytes b rest = .token kind more)
    (hkind : kind.numberType? ≠ none) :
    IsNumeral (b :: rest.take more) := by
  rw [ofBytes_of_isCode (isCode_of_token h)] at h
  have hunquoted : unquoted b rest = .token kind more := by
    unfold quotedOr at h
    split at h
    · split at h
      · exact absurd (numberType?_ofQuote h) hkind
      · exact h
    · exact h
  unfold unquoted at hunquoted
  split at hunquoted
  · next hstarts =>
    obtain ⟨-, rfl⟩ := Lexeme.token.inj hunquoted
    have hnumeral := numeral_take_number (b :: rest)
    rwa [← Nat.sub_add_cancel (number_pos hstarts), take_succ_cons] at hnumeral
  · split at hunquoted
    · exact absurd (numberType?_ofWord hunquoted) hkind
    · exact absurd (numberType?_ofOperator hunquoted) hkind

end Lexeme

/-- Every number among the tokens of some sources has the text of one. -/
theorem Source.numeral_of_mem_stackedTokens {sources : List Source} {tokens : List Token}
    {token : Token} (h : stackedTokens sources = .ok tokens) (htoken : token ∈ tokens)
    (hkind : token.kind.numberType? ≠ none) :
    IsNumeral token.text := by
  rcases stackedTokens_origin h token htoken with
    hlayout | hstring | ⟨b, rest, more, hlexeme, htext⟩
  · cases hkind' : token.kind <;>
      simp [hkind', TokenKind.isLayout, TokenKind.numberType?] at hlayout hkind
  · rcases hstring with hstring | hstring <;> simp [hstring, TokenKind.numberType?] at hkind
  · rw [htext]
    exact Lexeme.numeral_of_ofBytes hlexeme hkind

end NameInference
