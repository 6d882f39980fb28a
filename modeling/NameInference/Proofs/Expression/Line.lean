import NameInference.Proofs.Expression.Spelling
import NameInference.Proofs.Text.Terminators

/-!
# The tokens of a printed line

A printed expression is one physical line without leading blanks. Its brackets are balanced, so the
line is also a logical line: its tokens are the symbols of the expression, a newline and the end.
-/

namespace NameInference

open Lexeme List Piece

namespace Layout

/-- The layout once the symbols have been read. -/
def afterSymbols (layout : Layout) (symbols : List Symbol) : Layout :=
  symbols.foldl (fun before s => before.afterToken s.1) layout

theorem afterSymbols_append (layout : Layout) (symbols more : List Symbol) :
    layout.afterSymbols (symbols ++ more) = (layout.afterSymbols symbols).afterSymbols more :=
  foldl_append

end Layout

/-- Symbols behind which as many brackets are open as before them. -/
def Balanced (symbols : List Symbol) : Prop :=
  ∀ layout : Layout, layout.lineOpen = true → layout.afterSymbols symbols = layout

namespace Balanced

theorem nil : Balanced [] := fun _ _ => rfl

theorem append {symbols more : List Symbol} (h : Balanced symbols) (hmore : Balanced more) :
    Balanced (symbols ++ more) := by
  intro layout hopen
  rw [Layout.afterSymbols_append, h layout hopen, hmore layout hopen]

theorem flatMap {α : Type} {spell : α → List Symbol} {items : List α}
    (h : ∀ x ∈ items, Balanced (spell x)) :
    Balanced (items.flatMap spell) := by
  induction items with
  | nil => exact nil
  | cons x items ih =>
    rw [flatMap_cons]
    exact (h x mem_cons_self).append (ih fun y hy => h y (mem_cons_of_mem _ hy))

/-- Without brackets there is nothing to balance. -/
theorem plain {symbols : List Symbol}
    (h : ∀ s ∈ symbols, (s.1.opensBracket || s.1.closesBracket) = false) :
    Balanced symbols := by
  intro layout hopen
  induction symbols with
  | nil => rfl
  | cons s symbols ih =>
    have hrest := ih fun x hx => h x (mem_cons_of_mem _ hx)
    obtain ⟨hopens, hcloses⟩ := Bool.or_eq_false_iff.mp (h s mem_cons_self)
    obtain ⟨indents, depth, continued, lineOpen, pending⟩ := layout
    obtain rfl : lineOpen = true := hopen
    simpa [Layout.afterSymbols, Layout.afterToken, hopens, hcloses] using hrest

theorem cons {s : Symbol} (h : (s.1.opensBracket || s.1.closesBracket) = false)
    {symbols : List Symbol} (hsymbols : Balanced symbols) : Balanced (s :: symbols) :=
  (plain (forall_mem_singleton.mpr h)).append hsymbols

/-- Balanced symbols between brackets are balanced. -/
theorem bracketed {opener closer : Symbol} (hopener : opener.1.opensBracket = true)
    (hcloser : closer.1.opensBracket = false) (hcloser' : closer.1.closesBracket = true)
    {symbols : List Symbol} (h : Balanced symbols) : Balanced (opener :: symbols ++ [closer]) := by
  intro layout hopen
  obtain ⟨indents, depth, continued, lineOpen, pending⟩ := layout
  obtain rfl : lineOpen = true := hopen
  have hinside := h ⟨indents, depth + 1, continued, true, pending⟩ rfl
  rw [Layout.afterSymbols_append]
  have hopened : Layout.afterSymbols ⟨indents, depth, continued, true, pending⟩
    (opener :: symbols) =
      Layout.afterSymbols ⟨indents, depth + 1, continued, true, pending⟩ symbols := by
    simp [Layout.afterSymbols, Layout.afterToken, hopener]
  rw [hopened, hinside]
  simp [Layout.afterSymbols, Layout.afterToken, hcloser, hcloser']

theorem symbols {e : Expr} (h : Balanced e.bare) (place : Precedence) :
    Balanced (e.symbols place) := by
  rw [Expr.symbols_eq]
  split
  · exact h.bracketed rfl rfl rfl
  · exact h

end Balanced

/-- The brackets of an expression are balanced. -/
theorem Expr.balanced (e : Expr) : Balanced e.bare := by
  induction e with
  | name id => exact .cons rfl .nil
  | int literal => exact .cons rfl .nil
  | unary op e ih =>
    rw [bare_unary]
    exact .cons (by cases op <;> rfl) (ih.symbols _)
  | binary op l r ihl ihr =>
    rw [bare_binary]
    exact (ihl.symbols _).append (.cons (by cases op <;> rfl) (ihr.symbols _))
  | boolean op first second more ihf ihs ihm =>
    rw [bare_boolean]
    refine (ihf.symbols _).append (.flatMap fun e he => .cons (by cases op <;> rfl) (.symbols ?_ _))
    rcases mem_cons.mp he with rfl | he
    · exact ihs
    · exact ihm e he
  | compare left op right more ihl ihr ihm =>
    rw [bare_compare]
    refine (ihl.symbols _).append (.flatMap fun x hx => .append (.plain ?_) (.symbols ?_ _))
    · cases x.1 <;> decide
    rcases mem_cons.mp hx with rfl | hx
    · exact ihr
    · exact ihm x hx
  | conditional body test orElse ihb iht iho =>
    rw [bare_conditional]
    exact (ihb.symbols _).append (.cons rfl ((iht.symbols _).append (.cons rfl iho)))
  | attr value member ih =>
    rw [bare_attr]
    refine .append ?_ (.cons rfl (.cons rfl .nil))
    split
    · exact ih.bracketed rfl rfl rfl
    · exact ih.symbols _
  | call callee args ih iha =>
    rw [bare_call, append_assoc]
    refine (ih.symbols _).append (.bracketed rfl rfl rfl ?_)
    cases args with
    | nil => exact .nil
    | cons first more =>
      refine (iha first mem_cons_self).append (.flatMap fun e he => .cons rfl ?_)
      exact iha e (mem_cons_of_mem _ he)
  | subscript value index ihv ihi =>
    rw [bare_subscript, append_assoc]
    exact (ihv.symbols _).append (ihi.bracketed rfl rfl rfl)

/-- Behind balanced symbols the layout has changed in nothing but that the line has begun. -/
theorem Balanced.afterSymbols_cons {s : Symbol} {symbols : List Symbol}
    (h : Balanced (s :: symbols)) (layout : Layout) :
    layout.afterSymbols (s :: symbols) = { layout with lineOpen := true } := by
  have hfirst : layout.afterSymbols (s :: symbols) =
      Layout.afterSymbols { layout with lineOpen := true } (s :: symbols) := rfl
  rw [hfirst]
  exact h _ rfl

/-- The bytes of readable pieces give the symbols of the pieces. -/
theorem readFrom_bytesOf {pieces : List Piece} (h : Readable pieces) (file : Text)
    (number col : Nat) (layout : Layout) :
    ∃ tokens, Layout.readFrom file number col (bytesOf pieces) layout =
        .ok (tokens, layout.afterSymbols (pieces.filterMap Piece.symbol?)) ∧
      tokens.map Token.symbol = pieces.filterMap Piece.symbol? := by
  induction pieces generalizing col layout with
  | nil => exact ⟨[], by rw [bytesOf_nil, Layout.readFrom]; rfl, rfl⟩
  | cons piece pieces ih =>
    cases piece with
    | blank =>
      obtain ⟨tokens, hread, htokens⟩ := ih h (col + 1) layout
      refine ⟨tokens, ?_, htokens⟩
      have hblank : Lexeme.ofBytes 0x20 (bytesOf pieces) = .blank := by
        simp [Lexeme.ofBytes, isBlank]
      rw [bytesOf_blank, Layout.readFrom]
      simp only [hblank]
      exact hread
    | symbol s =>
      obtain ⟨⟨b, t, hs, hlexeme⟩, hpieces⟩ := h
      obtain ⟨tokens, hread, htokens⟩ := ih hpieces (col + t.length + 1) (layout.afterToken s.1)
      refine ⟨⟨s.1, b :: t, file, ⟨number, col⟩, ⟨number, col + t.length + 1⟩⟩ :: tokens, ?_, ?_⟩
      · rw [bytesOf_symbol, hs, cons_append, Layout.readFrom]
        simp only [hlexeme, drop_left, take_left, hread]
        rfl
      · simp [Token.symbol, htokens, ← hs]

/-- Printed symbols consist of visible ASCII characters. -/
theorem Symbol.Printed.visible {s : Symbol} (h : s.Printed) : ∀ b ∈ s.2, 0x20 ≤ b ∧ b < 0x7F := by
  cases h with
  | ident id =>
    intro b hb
    rcases mem_cons.mp hb with rfl | hb
    · have := id.starts
      grind [Byte.isLetter]
    · have := id.continues b hb
      grind [Byte.isLetter, Byte.isDigit]
  | int literal =>
    intro b hb
    rcases mem_cons.mp hb with rfl | hb
    · have := literal.starts
      grind [Byte.isDigit]
    · have := literal.continues b hb
      grind [Byte.isDigit]
  | unary op => cases op <;> decide +kernel
  | binary op => cases op <;> decide +kernel
  | boolean op => cases op <;> decide +kernel
  | compare op hs =>
    have hop : ∀ s ∈ op.symbols, ∀ b ∈ s.2, 0x20 ≤ b ∧ b < 0x7F := by cases op <;> decide +kernel
    exact hop s hs
  | _ => decide +kernel

/-- Pieces consist of visible characters if their symbols do. -/
theorem bytesOf_visible {pieces : List Piece}
    (h : ∀ s ∈ pieces.filterMap Piece.symbol?, ∀ b ∈ s.2, 0x20 ≤ b ∧ b < 0x7F) :
    ∀ b ∈ bytesOf pieces, 0x20 ≤ b ∧ b < 0x7F := by
  intro b hb
  obtain ⟨piece, hpiece, hb⟩ := mem_flatMap.mp hb
  cases piece with
  | blank =>
    rw [mem_singleton.mp hb]
    decide
  | symbol s => exact h s (mem_filterMap.mpr ⟨.symbol s, hpiece, rfl⟩) b hb

/-- Bytes that end no line make one line, whether or not it is ended. -/
theorem Lines.split_line {t : Text} (h : ∀ b ∈ t, b ≠ 0x0A ∧ b ≠ 0x0D) (hne : t ≠ [])
    (ended : Bool) :
    split (t ++ if ended then [0x0A] else []) = [t] := by
  induction t with
  | nil => exact absurd rfl hne
  | cons b t ih =>
    obtain ⟨hlf, hcr⟩ := h b mem_cons_self
    rw [cons_append, split_cons hlf hcr]
    cases t with
    | nil => cases ended <;> rfl
    | cons c t =>
      rw [ih (fun x hx => h x (mem_cons_of_mem _ hx)) (cons_ne_nil _ _)]
      rfl

/-- A line that does not begin with the first byte of the mark is all there is. -/
theorem Lines.ofText_line {t : Text} (h : ∀ b ∈ t, b ≠ 0x0A ∧ b ≠ 0x0D) (hne : t ≠ [])
    (hmark : t.head? ≠ some 0xEF) (ended : Bool) :
    ofText (t ++ if ended then [0x0A] else []) = [t] := by
  have hstart : Text.startsWith (t ++ if ended then [0x0A] else []) byteOrderMark = false := by
    obtain ⟨b, t, rfl⟩ := exists_cons_of_ne_nil hne
    have hb : b ≠ 0xEF := by simpa using hmark
    simp [Text.startsWith, byteOrderMark, List.isPrefixOf, hb.symm]
  rw [ofText, withoutMark, if_neg (by simp [hstart]), split_line h hne]

/-- Visible characters make one line. -/
theorem Lines.ofText_visible {t : Text} (h : ∀ b ∈ t, 0x20 ≤ b ∧ b < 0x7F) (hne : t ≠ []) :
    ofText t = [t] := by
  have hbreaks : ∀ b ∈ t, b ≠ 0x0A ∧ b ≠ 0x0D := by
    intro b hb
    constructor <;>
    · rintro rfl
      exact absurd (h _ hb) (by decide)
  have hmark : t.head? ≠ some 0xEF := by
    intro hhead
    exact absurd (h _ (mem_of_head? hhead)) (by decide)
  simpa using ofText_line hbreaks hne hmark false

/-- A printed expression begins with a symbol. -/
theorem Expr.exists_first_symbol (e : Expr) : ∃ s rest, e.pieces = .symbol s :: rest := by
  have hoperand {x : Expr} (h : ∃ s rest, x.pieces = .symbol s :: rest) (needed : Bool)
      (after : List Piece) : ∃ s rest, enclosed needed x.pieces ++ after = .symbol s :: rest := by
    obtain ⟨s, rest, hx⟩ := h
    cases needed with
    | false => exact ⟨s, _, by rw [enclosed, if_neg (by simp), hx]; rfl⟩
    | true => exact ⟨Symbol.openParen, _, rfl⟩
  induction e with
  | name | int | unary => exact ⟨_, _, rfl⟩
  | binary op l r ih => simpa [pieces] using hoperand ih _ _
  | boolean op first second more ih => simpa [pieces] using hoperand ih _ _
  | compare left op right more ih => simpa [pieces] using hoperand ih _ _
  | conditional body test orElse ih => simpa [pieces] using hoperand ih _ _
  | attr value member ih => simpa [pieces] using hoperand ih _ _
  | call callee args ih => cases args <;> simpa [pieces] using hoperand ih _ _
  | subscript value index ih => simpa [pieces] using hoperand ih _ _

theorem Expr.readable_pieces (e : Expr) : Readable e.pieces := by
  simpa using e.legible [] trivial (Or.inl (fun x hx => nomatch hx))

def Symbol.newline : Symbol := (.newline, "\n")

def Symbol.finish : Symbol := (.done, [])

theorem Lexeme.not_blank_of_token {b : UInt8} {rest : Text} {kind : TokenKind} {more : Nat}
    (h : Lexeme.ofBytes b rest = .token kind more) : isBlank b = false ∧ b ≠ 0x23 := by
  constructor
  · rw [← Bool.not_eq_true]
    intro hblank
    rw [Lexeme.ofBytes, if_pos hblank] at h
    cases h
  · rintro rfl
    cases h

/-- A line that begins with a token is read from its first byte on. -/
theorem Layout.readLine_of_token {file : Text} {number : Nat} {b : UInt8} {rest : Text}
    {kind : TokenKind} {more : Nat} (h : Lexeme.ofBytes b rest = .token kind more) :
    readLine file number (b :: rest) {} = readToEnd file number (b :: rest) 0 {} := by
  obtain ⟨hblank, hsign⟩ := not_blank_of_token h
  have hleading : (b :: rest).takeWhile isBlank = [] := by simp [hblank]
  have hbody : readLine file number (b :: rest) {} =
      (reindent file ⟨number, 1⟩ 0 {} >>= fun x =>
        readToEnd file number (b :: rest) 0 x.2 >>= fun y => pure (x.1 ++ y.1, y.2)) := by
    rw [readLine]
    simp only [hleading]
    rw [if_pos (by decide)]
    split
    · next heq => cases heq
    · next heq => exact absurd (List.cons.inj heq).1 hsign
    · rfl
  have hindent : reindent file ⟨number, 1⟩ 0 {} = .ok ([], {}) := rfl
  rw [hbody, hindent]
  change (readToEnd file number (b :: rest) 0 {} >>= fun y => pure ([] ++ y.1, y.2)) = _
  cases readToEnd file number (b :: rest) 0 {} <;> rfl

section Line

variable {s : Symbol} {pieces : List Piece} (hreadable : Readable (.symbol s :: pieces))
  (hlayout : Layout.afterSymbols {} (s :: pieces.filterMap Piece.symbol?) = { lineOpen := true })

include hreadable hlayout

/-- The tokens of a readable line that begins with a symbol and leaves no bracket open are its
symbols and a newline. -/
theorem Layout.readLine_pieces (file : Text) (number : Nat) :
    ∃ tokens, readLine file number (bytesOf (.symbol s :: pieces)) {} = .ok (tokens, {}) ∧
      tokens.map Token.symbol = s :: pieces.filterMap Piece.symbol? ++ [Symbol.newline] := by
  obtain ⟨tokens, hread, htokens⟩ := readFrom_bytesOf hreadable file number 1 {}
  rw [Piece.filterMap_symbol, hlayout] at hread
  obtain ⟨⟨b, t, hspelling, hlexeme⟩, -⟩ := hreadable
  have hbytes : bytesOf (.symbol s :: pieces) = b :: (t ++ bytesOf pieces) := by
    rw [bytesOf_symbol, hspelling, cons_append]
  refine ⟨tokens ++ [mark file ⟨number, (bytesOf (.symbol s :: pieces)).length + 1⟩ .newline "\n"],
    ?_, ?_⟩
  · rw [hbytes, readLine_of_token hlexeme, ← hbytes, readToEnd, drop_zero]
    have hline : readFrom file number 1 (bytesOf (.symbol s :: pieces)) {} =
      .ok (tokens, { lineOpen := true }) := hread
    rw [hline]
    rfl
  · rw [map_append, htokens]
    rfl

/-- The tokens of a source that has only this line. -/
theorem Source.stackedTokens_pieces {source : Source}
    (hlines : source.lines = [bytesOf (.symbol s :: pieces)]) :
    ∃ tokens, Source.stackedTokens [source] = .ok tokens ∧
      tokens.map Token.symbol = s :: pieces.filterMap Piece.symbol? ++
        [Symbol.newline, Symbol.finish] := by
  obtain ⟨tokens, hread, htokens⟩ := Layout.readLine_pieces hreadable hlayout source.file 1
  refine ⟨tokens ++ [source.endToken], ?_, ?_⟩
  · have hnumbered : Lines.numbered source.lines = [(1, bytesOf (.symbol s :: pieces))] := by
      rw [hlines]; rfl
    simp only [Source.stackedTokens, reverse_cons, reverse_nil, nil_append, Source.readAllTokens,
      Source.readTokens, hnumbered, Layout.readLines, hread]
    simp [bind, Except.bind, pure, Except.pure, Layout.close]
  · rw [map_append, htokens, append_assoc]
    rfl

end Line

/-- The tokens of a source that is readable pieces of visible characters with balanced brackets. -/
theorem Source.stackedTokens_line {s : Symbol} {pieces : List Piece}
    (hreadable : Readable (.symbol s :: pieces))
    (hbalanced : Balanced (s :: pieces.filterMap Piece.symbol?))
    (hvisible : ∀ x ∈ s :: pieces.filterMap Piece.symbol?, ∀ b ∈ x.2, 0x20 ≤ b ∧ b < 0x7F)
    (file : Text) :
    Source.lines ⟨bytesOf (.symbol s :: pieces), file⟩ = [bytesOf (.symbol s :: pieces)] ∧
      ∃ tokens, Source.stackedTokens [⟨bytesOf (.symbol s :: pieces), file⟩] = .ok tokens ∧
        tokens.map Token.symbol = s :: pieces.filterMap Piece.symbol? ++
          [Symbol.newline, Symbol.finish] := by
  have hne : bytesOf (.symbol s :: pieces) ≠ [] := by
    obtain ⟨⟨b, t, hspelling, -⟩, -⟩ := hreadable
    rw [bytesOf_symbol, hspelling]
    exact cons_ne_nil _ _
  have hlines : Source.lines ⟨bytesOf (.symbol s :: pieces), file⟩ =
    [bytesOf (.symbol s :: pieces)] :=
    Lines.ofText_visible (bytesOf_visible hvisible) hne
  exact ⟨hlines, stackedTokens_pieces hreadable (hbalanced.afterSymbols_cons {}) hlines⟩

/-- The tokens of a printed expression are its symbols, a newline and the end. -/
theorem Expr.stackedTokens_print (e : Expr) (file : Text) :
    ∃ tokens, Source.stackedTokens [⟨e.print, file⟩] = .ok tokens ∧
      tokens.map Token.symbol = e.bare ++ [Symbol.newline, Symbol.finish] := by
  obtain ⟨s, rest, hpieces⟩ := e.exists_first_symbol
  have hbare : e.bare = s :: rest.filterMap Piece.symbol? := by rw [bare, hpieces, filterMap_symbol]
  have hprint : e.print = bytesOf (.symbol s :: rest) := by rw [← hpieces]; rfl
  rw [hbare, hprint]
  exact (Source.stackedTokens_line (hpieces ▸ e.readable_pieces) (hbare ▸ e.balanced)
    (hbare ▸ fun s hs => (e.printed_of_mem_bare s hs).visible) file).2

end NameInference
