import NameInference.Syntax.Quoted
import NameInference.Proofs.Token.Literals

/-!
# Writing strings

A text between single quotes, with its backslashes, single quotes and line ends escaped. The search
for the closing quote and the decoding of escapes are two readers of such a literal: the first one
stops at the last quote, the second one gives the text back. Both follow one description of how a
byte is written.
-/

namespace NameInference.Quoted

open List

/-- How a byte is written between single quotes. -/
def escapeByte (b : UInt8) : Text :=
  if b == 0x5C || b == 0x27 then [0x5C, b]
  else if b == 0x0A then [0x5C, 0x6E]
  else if b == 0x0D then [0x5C, 0x72]
  else [b]

/-- A text as it is written between single quotes. -/
def escape (t : Text) : Text := t.flatMap escapeByte

/-- A text between single quotes. -/
def literal (t : Text) : Text := 0x27 :: (escape t ++ [0x27])

/-- The ways in which a byte is written: as it is, or as a backslash and what stands for the byte
behind one. -/
inductive Written (b : UInt8) : Text → Prop where
  | plain (hslash : b ≠ 0x5C) (hquote : b ≠ 0x27) (hlf : b ≠ 0x0A) (hcr : b ≠ 0x0D) : Written b [b]
  | escaped (e : UInt8) (hdecoded : simpleEscape? e = some b) (hlf : e ≠ 0x0A) (hcr : e ≠ 0x0D) :
    Written b [0x5C, e]

theorem written_escapeByte (b : UInt8) : Written b (escapeByte b) := by
  unfold escapeByte
  split
  · next h =>
    have hb : b = 0x5C ∨ b = 0x27 := by simpa using h
    rcases hb with rfl | rfl
    · exact .escaped _ rfl (by decide) (by decide)
    · exact .escaped _ rfl (by decide) (by decide)
  · next h =>
    split
    · next hlf =>
      rw [beq_iff_eq.mp hlf]
      exact .escaped _ rfl (by decide) (by decide)
    · next hlf =>
      split
      · next hcr =>
        rw [beq_iff_eq.mp hcr]
        exact .escaped _ rfl (by decide) (by decide)
      · next hcr =>
        have hne : b ≠ 0x5C ∧ b ≠ 0x27 := by simpa using h
        exact .plain hne.1 hne.2 (by simpa using hlf) (by simpa using hcr)

variable {b : UInt8} {w t rest : Text}

/-- No quote and no line end stands in the open. -/
theorem Written.head?_ne (h : Written b w) (rest : Text) : (w ++ rest).head? ≠ some 0x27 := by
  cases h with
  | plain _ hquote => simpa using hquote
  | escaped e => exact nofun

theorem Written.not_mem (h : Written b w) : 0x0A ∉ w ∧ 0x0D ∉ w := by
  cases h with
  | plain _ _ hlf hcr => simp [hlf.symm, hcr.symm]
  | escaped e _ hlf hcr => simp [hlf.symm, hcr.symm]

theorem head?_escape (t : Text) : (escape t).head? ≠ some 0x27 := by
  cases t with
  | nil => exact nofun
  | cons b t => exact (written_escapeByte b).head?_ne (escape t)

theorem not_mem_literal (t : Text) : 0x0A ∉ literal t ∧ 0x0D ∉ literal t := by
  have hinside : 0x0A ∉ escape t ∧ 0x0D ∉ escape t := by
    constructor <;>
    · intro h
      obtain ⟨b, -, hb⟩ := mem_flatMap.mp h
      have := (written_escapeByte b).not_mem
      simp_all
  simp [literal, hinside]

/-- Whatever stands behind it, a written byte is decoded to that byte. -/
theorem Written.unescape_append (h : Written b w) (rest : Text) :
    unescape (w ++ rest) = b :: unescape rest := by
  cases h with
  | plain hslash =>
    cases rest with
    | nil => rfl
    | cons x rest => simp [unescape.eq_def (b :: x :: rest), hslash]
  | escaped e hdecoded hlf =>
    rw [cons_append, singleton_append, unescape.eq_def]
    simp [hdecoded, hlf]

theorem unescape_escape (t : Text) : unescape (escape t) = t := by
  induction t with
  | nil => rfl
  | cons b t ih =>
    rw [escape, flatMap_cons, (written_escapeByte b).unescape_append]
    exact congrArg (b :: ·) ih

/-- A literal does not begin with three quotes. -/
theorem quoteWidth_literal (t : Text) : quoteWidth (literal t) = 1 := by
  have hhead := head?_escape t
  unfold quoteWidth literal
  cases he : escape t with
  | nil => rfl
  | cons x more =>
    have hx : x ≠ 0x27 := by simpa [he] using hhead
    simp [hx]

/-- The value of a literal is the text that was written. -/
theorem value_literal (t : Text) : value (literal t) = t := by
  have hraw : isRaw (literal t) = false := rfl
  have hquoted : (literal t).dropWhile (!isQuote ·) = literal t := rfl
  have hinside : inside (literal t) = escape t := by
    rw [inside, hquoted]
    simp only [quoteWidth_literal]
    simp [literal]
  rw [value, hraw, if_neg Bool.false_ne_true, hinside, unescape_escape]

theorem isFormatted_literal (t : Text) : isFormatted (literal t) = false := rfl

open Lexeme

/-- The search for the closing quote passes over a written byte. -/
theorem Written.quoteClose?_append (h : Written b w) (hrest : rest ≠ []) :
    quoteClose? 0x27 (w ++ rest) = (quoteClose? 0x27 rest).map (· + w.length) := by
  obtain ⟨x, rest, rfl⟩ := exists_cons_of_ne_nil hrest
  cases h with
  | plain hslash hquote => simp [quoteClose?, hslash, hquote]
  | escaped e => rfl

theorem quoteClose?_escape (t rest : Text) :
    quoteClose? 0x27 (escape t ++ 0x27 :: rest) = some ((escape t).length + 1) := by
  induction t with
  | nil => cases rest <;> rfl
  | cons b t ih =>
    have hcons : escape (b :: t) = escapeByte b ++ escape t := flatMap_cons
    rw [hcons, append_assoc, (written_escapeByte b).quoteClose?_append (by simp), ih,
      Option.map_some, length_append]
    congr 1
    omega

/-- The literal is one token wherever no further quote stands behind it. -/
theorem ofBytes_literal (t : Text) (hrest : rest.head? ≠ some 0x27) :
    ofBytes 0x27 (escape t ++ 0x27 :: rest) = .token .string ((escape t).length + 1) := by
  have htriple : ¬ [0x27, 0x27] <+: escape t ++ 0x27 :: rest := by
    have hhead := head?_escape t
    cases he : escape t with
    | nil =>
      cases rest with
      | nil => simp [cons_prefix_cons]
      | cons x rest => simpa [cons_prefix_cons, eq_comm] using hrest
    | cons x more =>
      have hx : x ≠ 0x27 := by simpa [he] using hhead
      simp [cons_prefix_cons, hx.symm]
  rw [ofBytes_of_isCode rfl]
  change quotedOr [] _ (0x27 :: (escape t ++ 0x27 :: rest)) = _
  rw [quotedOr_of_isQuote rfl, ofQuote_single htriple (quoteClose?_escape t rest)]
  simp [stringKind]

end NameInference.Quoted
