import NameInference.Proofs.Syntax.Atoms
import NameInference.Proofs.Token.Quotation

/-!
# Strings that are written are read back

Written literals on one line, with single blanks between them, are one token each, and side by side
they are one string: the texts that were written, one after the other.
-/

namespace NameInference

open List Quoted Piece

namespace Quoted

/-- Written literals with single blanks between them. -/
def line (texts : List Text) : Text := Text.joined [0x20] (texts.map literal)

/-- The symbol of a written literal. -/
def symbol (t : Text) : Symbol := (.string, literal t)

/-- The pieces of a line of literals behind its first one. -/
def furtherPieces (texts : List Text) : List Piece :=
  texts.flatMap fun t => [.blank, .symbol (symbol t)]

theorem line_cons (first : Text) (more : List Text) :
    line (first :: more) = bytesOf (.symbol (symbol first) :: furtherPieces more) := by
  induction more generalizing first with
  | nil => simp [line, Text.joined, furtherPieces, symbol]
  | cons next more ih =>
    have hline : line (first :: next :: more) = literal first ++ 0x20 :: line (next :: more) := by
      simp [line, Text.joined]
    rw [hline, ih next]
    rfl

theorem filterMap_furtherPieces (texts : List Text) :
    (furtherPieces texts).filterMap Piece.symbol? = texts.map symbol := by
  induction texts with
  | nil => rfl
  | cons t texts ih => simpa [furtherPieces] using ih

/-- Behind a literal comes a blank or nothing, so it is read as it was written. -/
theorem readable_line (first : Text) (more : List Text) :
    Readable (.symbol (symbol first) :: furtherPieces more) := by
  have hread (t rest : Text) (hrest : rest.head? ≠ some 0x27) : (symbol t).ReadBefore rest := by
    refine ⟨0x27, escape t ++ [0x27], rfl, ?_⟩
    rw [append_assoc, singleton_append, ofBytes_literal t hrest, length_append]
    rfl
  induction more generalizing first with
  | nil => exact ⟨hread first [] nofun, trivial⟩
  | cons next more ih =>
    refine ⟨hread first _ ?_, ih next⟩
    change some (0x20 : UInt8) ≠ some 0x27
    decide

/-- Literals open and close no brackets. -/
theorem afterSymbols_line (first : Text) (more : List Text) :
    Layout.afterSymbols {} (symbol first :: more.map symbol) = { lineOpen := true } := by
  have hplain : Balanced (more.map symbol) := by
    apply Balanced.plain
    intro s hs
    obtain ⟨t, -, rfl⟩ := mem_map.mp hs
    rfl
  exact hplain { lineOpen := true } rfl

theorem line_unbroken (first : Text) (more : List Text) :
    ∀ b ∈ line (first :: more), b ≠ 0x0A ∧ b ≠ 0x0D := by
  intro b hb
  have hliteral {t : Text} (h : b ∈ literal t) : b ≠ 0x0A ∧ b ≠ 0x0D := by
    constructor <;>
    · rintro rfl
      have := not_mem_literal t
      simp_all
  rw [line_cons, bytesOf_symbol, mem_append] at hb
  rcases hb with hb | hb
  · exact hliteral hb
  · obtain ⟨piece, hpiece, hb⟩ := mem_flatMap.mp hb
    obtain ⟨t, -, hpiece⟩ := mem_flatMap.mp hpiece
    rcases mem_pair.mp hpiece with rfl | rfl
    · rw [mem_singleton.mp hb]
      decide
    · exact hliteral hb

end Quoted

namespace Grammar

open Parse

/-- The next token, if it is a string. -/
theorem strings_eq_many : ∃ step : Parse (Option Token),
    strings = (start >>= fun first => many step >>= fun tokens =>
      if tokens.any (·.kind == .bytes) then node first
        (.bytes (tokens.flatMap (Quoted.value ·.text)))
      else node first
        (.string (tokens.flatMap (Quoted.value ·.text)) (tokens.any (Quoted.isFormatted ·.text)))) ∧
    (∀ c, c.current.kind = .newline → step c = .ok (none, c)) ∧
    ∀ c, c.current.kind = .string → step c = .ok (some c.current, c.advance) := by
  refine ⟨_, rfl, fun c h => ?_, fun c h => ?_⟩
  · rw [kind_bind, h]
    rfl
  · rw [kind_bind, h]
    rfl

/-- Written literals side by side are one string. -/
theorem strings_reads (texts : List Text) :
    Reads strings (texts.map Quoted.symbol) atNewline
      (fun n => ∃ span, n = .mk span .load (.string texts.flatten false)) := by
  obtain ⟨step, hstrings, hstop, htake⟩ := strings_eq_many
  have hmany : Reads (many step) (texts.flatMap fun t => [Quoted.symbol t]) atNewline
      (List.Forall₂ (fun t token => Token.symbol token = Quoted.symbol t) texts) := by
    refine many_reads goesOn rfl (fun c hc => hstop c (kind_of_atNewline hc)) (fun rest hrest => ?_)
      (fun t _ c rest hc hrest => ?_) (fun t _ rest => rfl) (fun t _ => cons_ne_nil _ _)
    · cases rest with
      | nil => cases hrest
      | cons s rest => rfl
    · obtain ⟨s, rest, rfl⟩ := exists_cons_of_goesOn hrest
      exact ⟨_, _, htake c (Cursor.current_kind hc), Cursor.symbols_advance hc, _, rfl,
        (List.cons.inj hc).1⟩
  intro c rest hc hrest
  obtain ⟨tokens, c', hrun, hc', hsymbols⟩ := hmany c rest (by rwa [← map_eq_flatMap]) hrest
  have htokens : tokens.map Token.symbol = texts.map Quoted.symbol := by
    rw [eq_comm, ← List.forall₂_eq_eq_eq, List.forall₂_map_left_iff, List.forall₂_map_right_iff]
    exact hsymbols.imp fun _ _ h => h.symm
  have hkinds : tokens.map Token.kind = texts.map fun _ => .string := by
    simpa [Function.comp_def, Token.symbol,
      Quoted.symbol] using congrArg (List.map Prod.fst) htokens
  have htexts : tokens.map Token.text = texts.map Quoted.literal := by
    simpa [Function.comp_def, Token.symbol,
      Quoted.symbol] using congrArg (List.map Prod.snd) htokens
  have hvalue : tokens.flatMap (Quoted.value ·.text) = texts.flatten := by
    rw [← flatMap_map Token.text Quoted.value, htexts, flatMap_map]
    simp [value_literal]
  have hbytes : tokens.any (·.kind == .bytes) = false := by
    have hany : tokens.any (·.kind == .bytes) = (tokens.map Token.kind).any (· == .bytes) := by
      simp [Function.comp_def]
    rw [hany, hkinds]
    simp
  have hformatted : tokens.any (Quoted.isFormatted ·.text) = false := by
    have hany : tokens.any (Quoted.isFormatted ·.text) =
        (tokens.map Token.text).any Quoted.isFormatted := by
      simp [Function.comp_def]
    rw [hany, htexts]
    simp [isFormatted_literal]
  refine ⟨_, c', ?_, hc', ⟨c.current.start, c'.lastEnd⟩, rfl⟩
  rw [hstrings, start_bind, bind_of_ok hrun, hvalue, hbytes, hformatted]
  rfl

end Grammar

/-- Strings that are written are read back: the tokens of a line of literals are these literals, a
newline and the end, and its module is one string, neither formatted nor of bytes, with the written
texts one after the other. -/
theorem Module.ofSource_line (first : Text) (more : List Text) (ended : Bool) (file : Text) :
    ∃ tokens module rootSpan stmtSpan span,
      Source.stackedTokens [⟨Quoted.line (first :: more) ++ if ended then [0x0A] else [], file⟩] =
        .ok tokens ∧
      tokens.map Token.symbol = (first :: more).map Quoted.symbol ++
        [Symbol.newline, Symbol.finish] ∧
      Module.ofSource ⟨Quoted.line (first :: more) ++ if ended then [0x0A] else [], file⟩ =
        .ok module ∧
      module.root = .mk rootSpan .load (.module [.mk stmtSpan .load (.exprStmt
        (.mk span .load (.string (first :: more).flatten false)))]) := by
  have hlines : Source.lines ⟨Quoted.line (first :: more) ++ if ended then [0x0A] else [], file⟩ =
      [bytesOf (.symbol (Quoted.symbol first) :: Quoted.furtherPieces more)] := by
    rw [← line_cons]
    refine Lines.ofText_line (line_unbroken first more) ?_ ?_ ended
    · rw [line_cons]
      exact cons_ne_nil _ _
    · rw [line_cons]
      change some (0x27 : UInt8) ≠ some 0xEF
      decide
  obtain ⟨tokens, htokens, hsymbols⟩ := Source.stackedTokens_pieces (readable_line first more)
    (by rw [filterMap_furtherPieces]; exact afterSymbols_line first more) hlines
  rw [filterMap_furtherPieces, ← map_cons] at hsymbols
  have hcursor : (Cursor.ofTokens tokens).symbols =
      (first :: more).map Quoted.symbol ++ [Symbol.newline, Symbol.finish] := by
    cases tokens with
    | nil => simp at hsymbols
    | cons t tokens => exact hsymbols
  have hkind : (Cursor.ofTokens tokens).current.kind = .string := Cursor.current_kind hcursor
  obtain ⟨n, c', hstrings, hend, span, rfl⟩ := Grammar.strings_reads (first :: more) _ _ hcursor rfl
  have hatom (inner : Grammar.Inner) : Grammar.atom inner (Cursor.ofTokens tokens) =
      .ok (.mk span .load (.string (first :: more).flatten false), c') := by
    rw [Grammar.atom, Parse.kind_bind, hkind]
    exact hstrings
  obtain ⟨module, rootSpan, stmtSpan, hmodule, hroot⟩ :=
    Module.ofSource_of_atom htokens hsymbols (by rw [hkind]; rfl) (hatom _) hend
  exact ⟨tokens, module, rootSpan, stmtSpan, span, htokens, hsymbols, hmodule, hroot⟩

end NameInference
