import NameInference.Proofs.Token.Extent
import NameInference.Proofs.Token.Spelling

/-!
# Lexemes part by part

A lexeme that is neither a blank, a comment nor a continuation is a string, if a quote follows the
letters in front, or else a number, a word or an operator. Strings and numbers are taken apart
further: what closes a string, and which parts a number has.
-/

namespace NameInference.Lexeme

variable {quote : UInt8}

variable {b : UInt8}

/-- The kind of a string with these letters before its quotes. -/
def stringKind (letters : Text) : TokenKind := if letters.any isBytesLetter then .bytes else .string

/-- A string is closed by three quotes or by one. -/
theorem ofQuote_cases {letters t : Text} {kind : TokenKind} {k : Nat}
    (h : ofQuote letters quote t = .token kind k) :
    stringKind letters = kind ∧
      ((∃ body inside, t = quote :: quote :: body ∧ tripleClose? quote body = some inside ∧
          k = letters.length + inside + 5) ∨
        (¬ [quote, quote] <+: t ∧ ∃ n, quoteClose? quote t = some n ∧ k = letters.length + n)) := by
  revert h
  fun_cases ofQuote letters quote t with
  | case1 _ x y body hquotes inside hinside =>
    intro h
    obtain ⟨rfl, rfl⟩ : x = quote ∧ y = quote := by simpa using hquotes
    obtain ⟨hkind, hk⟩ := Lexeme.token.inj h
    exact ⟨hkind, .inl ⟨body, inside, rfl, hinside, hk.symm⟩⟩
  | case2 =>
    intro h
    cases h
  | case3 _ x y body hquotes n hclose =>
    intro h
    rw [hclose] at h
    obtain ⟨hkind, hk⟩ := Lexeme.token.inj h
    have htriple : ¬ [quote, quote] <+: x :: y :: body := by
      simpa [List.cons_prefix_cons, eq_comm (a := quote)] using hquotes
    exact ⟨hkind, .inr ⟨htriple, n, hclose, hk.symm⟩⟩
  | case4 _ x y body hquotes hclose =>
    rw [hclose]
    intro h
    cases h
  | case5 t _ n hclose hshort =>
    intro h
    rw [hclose] at h
    obtain ⟨hkind, hk⟩ := Lexeme.token.inj h
    have htriple : ¬ [quote, quote] <+: t := by
      rintro ⟨body, hbody⟩
      exact hshort quote quote body hbody.symm
    exact ⟨hkind, .inr ⟨htriple, n, hclose, hk.symm⟩⟩
  | case6 t _ hclose =>
    rw [hclose]
    intro h
    cases h

theorem ofQuote_single {letters t : Text} {n : Nat} (htriple : ¬ [quote, quote] <+: t)
    (h : quoteClose? quote t = some n) :
    ofQuote letters quote t = .token (stringKind letters) (letters.length + n) := by
  fun_cases ofQuote letters quote t with
  | case1 _ x y body hquotes | case2 _ x y body hquotes =>
    obtain ⟨rfl, rfl⟩ : x = quote ∧ y = quote := by simpa using hquotes
    exact absurd (List.prefix_append [y, y] body) htriple
  | case3 | case4 | case5 | case6 =>
    rw [h]
    rfl

/-- The digits of an exponent behind its letter and its sign: there has to be one. -/
def exponentDigits : Text → Nat
  | [] => 0
  | d :: rest => if Byte.isDigit d then (digits Byte.isDigit (d :: rest)).length else 0

/-- The length of an exponent of so many digits, with the letter and the sign. -/
def exponentOf (lead digits : Nat) : Nat := if digits = 0 then 0 else lead + digits

/-- The sign of an exponent. -/
def isSign (b : UInt8) : Bool := b == 0x2B || b == 0x2D

theorem exponentOf_cons (lead : Nat) (d : UInt8) (t : Text) :
    exponentOf lead (exponentDigits (d :: t)) =
      if Byte.isDigit d then lead + (digits Byte.isDigit (d :: t)).length else 0 := by
  by_cases hd : Byte.isDigit d = true
  · have hpos : (digits Byte.isDigit (d :: t)).length ≠ 0 := by simp [digits, hd]
    simp [exponentOf, exponentDigits, hd, hpos]
  · simp [exponentOf, exponentDigits, hd]

theorem exponentLength_cons (e : UInt8) (t : Text) :
    exponentLength (e :: t) =
      if e == 0x65 || e == 0x45 then
        if t.head?.any isSign then exponentOf 2 (exponentDigits t.tail)
        else exponentOf 1 (exponentDigits t)
      else 0 := by
  rw [exponentLength.eq_def]
  dsimp only
  split
  · cases t with
    | nil => rfl
    | cons s t =>
      by_cases hs : isSign s = true
      · have hsigned : (s == 0x2B || s == 0x2D) = true := hs
        simp only [hsigned, List.head?_cons, Option.any_some, hs, if_pos, List.drop_one,
          List.tail_cons]
        cases t with
        | nil => rfl
        | cons d t => exact (exponentOf_cons 2 d t).symm
      · have hsigned : (s == 0x2B || s == 0x2D) = false := Bool.eq_false_iff.mpr hs
        simp [hsigned, hs, exponentOf_cons]
  · rfl

/-- A leading zero and the letter of another base. -/
def isBased : Text → Bool
  | 0x30 :: b :: _ => isBaseLetter b
  | _ => false

/-- Kind and length of a number that is not of another base. -/
def decimal (t : Text) : TokenKind × Nat :=
  let whole := (digits Byte.isDigit t).length
  let fraction := fractionLength (t.drop whole)
  let exponent := exponentLength (t.drop (whole + fraction))
  let length := whole + fraction + exponent
  if imaginaryNext (t.drop length) then (.imag, length + 1)
  else (if fraction + exponent == 0 then .int else .float, length)

theorem number_eq (t : Text) :
    number t = if isBased t then (.int, 2 + (digits Byte.isHexDigit (t.drop 2)).length)
      else decimal t := rfl

/-- What begins with a byte if no quote belongs to it. -/
def unquoted (b : UInt8) (rest : Text) : Lexeme :=
  if startsNumber b rest then .token (number (b :: rest)).1 ((number (b :: rest)).2 - 1)
  else if startsName b then ofWord b rest
  else ofOperator b rest

/-- The letters in front that may stand before the quotes of a string. -/
def leadLetters (t : Text) : Text := (t.take 2).takeWhile isStringLetter

/-- Bytes that are neither a blank nor the beginning of a comment or a continuation. -/
def isCode (b : UInt8) : Bool := !isBlank b && b != 0x23 && b != 0x5C

/-- The string with these letters before its quotes, if a quote comes next. -/
def quotedOr (letters : Text) (other : Lexeme) : Text → Lexeme
  | quote :: after => if isQuote quote then ofQuote letters quote after else other
  | [] => other

theorem quotedOr_of_isQuote {letters after : Text} {other : Lexeme} (h : isQuote quote = true) :
    quotedOr letters other (quote :: after) = ofQuote letters quote after := if_pos h

theorem startsName_of_isStringLetter (h : isStringLetter b = true) : startsName b = true := by
  have hall : [0x62, 0x42, 0x72, 0x52, 0x75, 0x55, 0x66, 0x46].all startsName = true := by decide
  exact List.all_eq_true.mp hall b (List.contains_iff_mem.mp h)

theorem unquoted_of_startsName (h : startsName b = true) (t : Text) :
    unquoted b t = ofWord b t := by
  rw [unquoted, if_neg (by simp [(startsName_ne h t).2.2.2.2]), if_pos h]

theorem ofBytes_of_isCode (hb : isCode b = true) (t : Text) :
    ofBytes b t =
      quotedOr (leadLetters (b :: t)) (unquoted b t)
        ((b :: t).drop (leadLetters (b :: t)).length) := by
  simp only [isCode, Bool.and_eq_true, Bool.not_eq_true', bne_iff_ne] at hb
  obtain ⟨⟨hblank, hsign⟩, hslash⟩ := hb
  rw [ofBytes, if_neg (by simp [hblank]), if_neg (by simpa using hsign),
    if_neg (by simpa using hslash)]
  change _ = quotedOr _ _ ((b :: t).drop (((b :: t).take 2).takeWhile isStringLetter).length)
  dsimp only
  split
  · next quote after hsplit => rw [hsplit, quotedOr]; rfl
  · next hsplit =>
    -- Everything is a letter, and the first one begins a name.
    have hletter : isStringLetter b = true := by
      by_contra hb
      simp [hb] at hsplit
    rw [hsplit, quotedOr, unquoted_of_startsName (startsName_of_isStringLetter hletter)]

theorem isCode_of_token {t : Text} {kind : TokenKind} {k : Nat} (h : ofBytes b t = .token kind k) :
    isCode b = true := by
  by_contra hb
  have hcases : isBlank b = true ∨ b = 0x23 ∨ b = 0x5C := by
    simpa [isCode, Classical.or_iff_not_imp_left] using hb
  unfold ofBytes at h
  rcases hcases with hblank | rfl | rfl
  · rw [if_pos hblank] at h
    cases h
  · cases h
  · change (if t.isEmpty then Lexeme.continuation else .fault .afterContinuation) = _ at h
    split at h <;> cases h

end NameInference.Lexeme
