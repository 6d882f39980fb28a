import Mathlib.Data.List.Basic
import NameInference.Token.Lexeme

/-!
# How far a lexeme reaches

A lexeme never takes more bytes than its line has left, and it never claims one of the layout kinds.
The other answers are decided by the first byte: blanks, the number sign, and the backslash that
ends its line.
-/

namespace NameInference.Lexeme

open List

/-- Three closing quotes stand within the text that is searched. -/
theorem tripleClose?_le {quote : UInt8} {t : Text} {inside : Nat}
    (h : tripleClose? quote t = some inside) :
    inside + 3 ≤ t.length := by
  fun_induction tripleClose? quote t generalizing inside with
  | case1 => cases h
  | case2 => cases h
  | case3 b c rest hb ih =>
    obtain ⟨k, hk, rfl⟩ := Option.map_eq_some_iff.mp h
    have := ih hk
    simp only [length_cons]
    omega
  | case4 b c rest hb hquote =>
    cases rest with
    | nil => simp at hquote
    | cons d rest =>
      cases h
      simp
  | case5 b c rest hb hquote ih =>
    obtain ⟨k, hk, rfl⟩ := Option.map_eq_some_iff.mp h
    have := ih hk
    simp only [length_cons] at this ⊢
    omega

/-- A closing quote stands within the text that is searched. -/
theorem quoteClose?_le {quote : UInt8} {t : Text} {length : Nat}
    (h : quoteClose? quote t = some length) :
    length ≤ t.length := by
  fun_induction quoteClose? quote t generalizing length with
  | case1 => cases h
  | case2 b hb =>
    cases h
    simp
  | case3 => cases h
  | case4 b c rest hb ih =>
    obtain ⟨k, hk, rfl⟩ := Option.map_eq_some_iff.mp h
    have := ih hk
    simp only [length_cons]
    omega
  | case5 b c rest hb hquote =>
    cases h
    simp
  | case6 b c rest hb hquote ih =>
    obtain ⟨k, hk, rfl⟩ := Option.map_eq_some_iff.mp h
    have := ih hk
    simp only [length_cons] at this ⊢
    omega

theorem digits_length_le (isDigit : UInt8 → Bool) (t : Text) :
    (digits isDigit t).length ≤ t.length :=
  (List.takeWhile_prefix _).length_le

theorem fractionLength_le (t : Text) : fractionLength t ≤ t.length := by
  fun_cases fractionLength t with
  | case1 rest =>
    have := digits_length_le Byte.isDigit rest
    simp only [length_cons]
    omega
  | case2 => exact Nat.zero_le _

theorem exponentLength_le (t : Text) : exponentLength t ≤ t.length := by
  fun_cases exponentLength t with
  | case1 e rest he signed after d tail hafter hd =>
    have hdigits := digits_length_le Byte.isDigit after
    have hpos : 0 < after.length := by simp [hafter]
    by_cases hs : signed = true
    · have hlen : after.length = rest.length - 1 := by simp [after, hs]
      simp only [if_pos hs, length_cons]
      omega
    · have hlen : after.length = rest.length := by simp [after, hs]
      simp only [if_neg hs, length_cons]
      omega
  | case2 => exact Nat.zero_le _
  | case3 => exact Nat.zero_le _
  | case4 => exact Nat.zero_le _
  | case5 => exact Nat.zero_le _

/-- A number stays within its text, and its kind is that of a number. -/
theorem number_extent (t : Text) : (number t).2 ≤ t.length ∧ (number t).1.isLayout = false := by
  fun_cases number t with
  | case1 based hbased =>
    have hlen : 2 ≤ t.length := by
      rcases t with - | ⟨b, - | ⟨c, rest⟩⟩
      · simp [based] at hbased
      · simp [based] at hbased
      · simp
    have hdigits := digits_length_le Byte.isHexDigit (t.drop 2)
    rw [length_drop] at hdigits
    exact ⟨by simp only; omega, rfl⟩
  | case2 based hbased whole fraction exponent length himag =>
    have hlen : length < t.length := by
      by_contra hle
      simp [drop_eq_nil_of_le (Nat.le_of_not_lt hle), imaginaryNext] at himag
    exact ⟨hlen, rfl⟩
  | case3 based hbased whole fraction exponent length himag =>
    have hwhole : whole ≤ t.length := digits_length_le _ t
    have hfraction : fraction ≤ t.length - whole := by
      simpa only [length_drop] using fractionLength_le (t.drop whole)
    have hexponent : exponent ≤ t.length - (whole + fraction) := by
      simpa only [length_drop] using exponentLength_le (t.drop (whole + fraction))
    refine ⟨by simp only [length]; omega, ?_⟩
    split <;> rfl

/-- No entry of a table of spellings is layout if none is in the table of strings. -/
theorem isLayout_of_mem_inBytes {table : List (String × TokenKind)}
    (htable : ∀ entry ∈ table, entry.2.isLayout = false) {entry : Text × TokenKind}
    (h : entry ∈ inBytes table) :
    entry.2.isLayout = false := by
  obtain ⟨source, hsource, rfl⟩ := mem_map.mp h
  exact htable source hsource

theorem wordKind_isLayout (word : Text) : (wordKind word).isLayout = false := by
  cases hfound : (inBytes keywords).lookup word with
  | none => simp [wordKind, hfound, TokenKind.isLayout]
  | some kind =>
    obtain ⟨before, after, hsplit, -⟩ := lookup_eq_some_iff.mp hfound
    have hmem : (word, kind) ∈ inBytes keywords := by simp [hsplit]
    simpa only [wordKind, hfound, Option.getD_some] using isLayout_of_mem_inBytes (by decide) hmem

/-- A token or a string that takes at most `room` bytes behind its first one and is none of layout,
or a fault. -/
def FitsIn (room : Nat) : Lexeme → Prop
  | .token kind more => more ≤ room ∧ kind.isLayout = false
  | .openString kind _ => kind = .string ∨ kind = .bytes
  | .fault _ => True
  | .blank | .comment | .continuation => False

theorem ofWord_fitsIn (b : UInt8) (rest : Text) : (ofWord b rest).FitsIn rest.length :=
  ⟨(List.takeWhile_prefix _).length_le, wordKind_isLayout _⟩

theorem ofOperator_fitsIn (b : UInt8) (rest : Text) : (ofOperator b rest).FitsIn rest.length := by
  fun_cases ofOperator b rest with
  | case1 spelling kind hfound =>
    have hprefix := find?_some hfound
    have hlen := (List.isPrefixOf_iff_prefix.mp hprefix).length_le
    refine ⟨?_, isLayout_of_mem_inBytes (by decide) (mem_of_find?_eq_some hfound)⟩
    simp only [length_cons] at hlen
    omega
  | case2 => trivial

theorem ofQuote_fitsIn (letters : Text) (quote : UInt8) (rest : Text) :
    (ofQuote letters quote rest).FitsIn (letters.length + rest.length) := by
  have hkind : (if letters.any isBytesLetter then TokenKind.bytes else TokenKind.string).isLayout =
      false := by
    split <;> rfl
  fun_cases ofQuote letters quote rest with
  | case1 kind b c body hquotes inside hclose =>
    refine ⟨?_, hkind⟩
    have := tripleClose?_le hclose
    simp only [length_cons]
    omega
  | case2 kind =>
    simp only [FitsIn, kind]
    split <;> simp
  | case3 kind b c body hquotes length hclose =>
    rw [hclose]
    exact ⟨Nat.add_le_add_left (quoteClose?_le hclose) _, hkind⟩
  | case4 kind b c body hquotes hclose =>
    rw [hclose]
    trivial
  | case5 rest kind length hclose =>
    rw [hclose]
    exact ⟨Nat.add_le_add_left (quoteClose?_le hclose) _, hkind⟩
  | case6 rest kind hclose =>
    rw [hclose]
    trivial

/-- What a lexeme says of the byte it begins with and of the rest of the line. -/
def Describes (b : UInt8) (rest : Text) : Lexeme → Prop
  | .blank => b ∈ [0x20, 0x09, 0x0C]
  | .comment => b = 0x23
  | .continuation => b = 0x5C ∧ rest = []
  | other => other.FitsIn rest.length

theorem FitsIn.describes {b : UInt8} {rest : Text} {lexeme : Lexeme}
    (h : lexeme.FitsIn rest.length) :
    lexeme.Describes b rest := by
  cases lexeme with
  | token | openString | fault => exact h
  | blank | comment | continuation => exact h.elim

theorem mem_of_isBlank {b : UInt8} (h : isBlank b = true) : b ∈ [0x20, 0x09, 0x0C] := by
  simpa [isBlank, or_assoc] using h

/-- Blanks, comments and continuations are told by their byte, and everything else ends on its line,
a string left open apart. -/
theorem ofBytes_describes (b : UInt8) (rest : Text) : (ofBytes b rest).Describes b rest := by
  fun_cases ofBytes b rest with
  | case1 hblank => exact mem_of_isBlank hblank
  | case2 _ hcomment => exact beq_iff_eq.mp hcomment
  | case3 _ _ hslash hend => exact ⟨beq_iff_eq.mp hslash, isEmpty_iff.mp hend⟩
  | case4 => trivial
  | case5 _ _ _ letters quote after hsplit =>
    have hlen := congrArg List.length hsplit
    simp only [length_drop, length_cons] at hlen
    have hroom : letters.length + after.length = rest.length := by omega
    exact (hroom ▸ ofQuote_fitsIn letters quote after).describes
  | case6 _ _ _ _ _ _ _ _ _ kind length hnumber =>
    obtain ⟨hlen, hkind⟩ := number_extent (b :: rest)
    rw [hnumber] at hlen hkind
    exact ⟨Nat.sub_le_of_le_add hlen, hkind⟩
  | case7 => exact (ofWord_fitsIn b rest).describes
  | case8 => exact (ofOperator_fitsIn b rest).describes
  | case9 => exact (ofWord_fitsIn b rest).describes

end NameInference.Lexeme
