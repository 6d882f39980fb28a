import NameInference.Token.Lexeme
import NameInference.Text.Lines

/-!
# Logical lines

Physical lines are joined by open brackets, by a backslash at the end of a line and by strings in
triple quotes. Only the first line of a logical line is measured for indentation, and only its end
gives a newline token. Between lines the reader keeps the enclosing indentations, the open brackets
and an open string.
-/

namespace NameInference

/-- A string in triple quotes whose end has not been read. -/
structure OpenString where
  kind : TokenKind
  quote : UInt8
  start : Position
  text : Text
  deriving DecidableEq, Repr

/-- What is carried from one physical line to the next. -/
structure Layout where
  /-- Enclosing indentations, innermost first; the outermost is zero. -/
  indents : List Nat := [0]
  /-- Open brackets; a closer without an opener counts as nothing. -/
  depth : Nat := 0
  /-- The previous line ended in a backslash. -/
  continued : Bool := false
  /-- Tokens have been read since the last newline token. -/
  lineOpen : Bool := false
  pending : Option OpenString := none
  deriving DecidableEq, Repr

namespace Layout

/-- A tab goes to the next multiple of eight, a blank one further, a form feed nowhere. -/
def indentWidth (leading : Text) : Nat :=
  leading.foldl (fun width b =>
    if b == 0x09 then (width / 8 + 1) * 8 else if b == 0x20 then width + 1 else width) 0

/-- The layout once a token of the given kind has been read. -/
def afterToken (layout : Layout) (kind : TokenKind) : Layout :=
  { layout with
    lineOpen := true
    depth :=
      if kind.opensBracket then layout.depth + 1
      else if kind.closesBracket then layout.depth - 1 else layout.depth }

/-- A token without width. -/
def mark (file : Text) (position : Position) (kind : TokenKind) (text : Text) : Token :=
  ⟨kind, text, file, ⟨position, position⟩⟩

/-- One indent if the width grows, else one dedent for each indentation that is left. The width
reached by dedents has to be an enclosing one. -/
def reindent (file : Text) (position : Position) (width : Nat) (layout : Layout) :
    Except SyntaxError (List Token × Layout) :=
  if layout.indents.headD 0 < width then
    .ok ([mark file position .indent "<INDENT>"],
      { layout with indents := width :: layout.indents })
  else
    let left := layout.indents.takeWhile (width < ·)
    let outer := layout.indents.dropWhile (width < ·)
    if outer.headD 0 == width then
      .ok (left.map fun _ => mark file position .dedent "<DEDENT>",
        { layout with indents := outer })
    else .error ⟨file, position, .unmatchedUnindent⟩

/-- The tokens of the rest of a line, which begins at column `col`. -/
def readFrom (file : Text) (line : Nat) (col : Nat) (rest : Text) (layout : Layout) :
    Except SyntaxError (List Token × Layout) :=
  match rest with
  | [] => .ok ([], layout)
  | b :: rest =>
    match Lexeme.ofBytes b rest with
    | .blank => readFrom file line (col + 1) rest layout
    | .comment => .ok ([], layout)
    | .continuation => .ok ([], { layout with continued := true })
    | .openString kind quote =>
      .ok ([], { layout with pending := some ⟨kind, quote, ⟨line, col⟩, b :: rest ++ [0x0A]⟩ })
    | .fault fault => .error ⟨file, ⟨line, col⟩, fault⟩
    | .token kind more =>
      match readFrom file line (col + more + 1) (rest.drop more) (layout.afterToken kind) with
      | .error e => .error e
      | .ok (tokens, layout) =>
        .ok (⟨kind, b :: rest.take more, file, ⟨line, col⟩, ⟨line, col + more + 1⟩⟩ :: tokens,
          layout)
termination_by rest.length

/-- Ends the logical line after `length` bytes, unless something joins the next line to it. -/
def endLine (file : Text) (line length : Nat) (tokens : List Token) (layout : Layout) :
    List Token × Layout :=
  if layout.pending.isNone && layout.depth == 0 && !layout.continued && layout.lineOpen then
    (tokens ++ [mark file ⟨line, length + 1⟩ .newline "\n"], { layout with lineOpen := false })
  else (tokens, layout)

/-- The tokens of the rest of a line and of its end. -/
def readToEnd (file : Text) (number : Nat) (line : Text) (skipped : Nat) (layout : Layout) :
    Except SyntaxError (List Token × Layout) := do
  let (tokens, layout) ← readFrom file number (skipped + 1) (line.drop skipped)
    { layout with continued := false }
  return endLine file number line.length tokens layout

/-- The tokens of one physical line. -/
def readLine (file : Text) (number : Nat) (line : Text) (layout : Layout) :
    Except SyntaxError (List Token × Layout) :=
  match layout.pending with
  | some pending =>
    match Lexeme.tripleClose? pending.quote line with
    | none => .ok ([],
      { layout with pending := some { pending with text := pending.text ++ line ++ [0x0A] } })
    | some inside => do
      let token : Token :=
        ⟨pending.kind, pending.text ++ line.take (inside + 3), file,
          ⟨pending.start, ⟨number, inside + 4⟩⟩⟩
      let (tokens, layout) ←
        readToEnd file number line (inside + 3) { layout with pending := none, lineOpen := true }
      return (token :: tokens, layout)
  | none =>
    if layout.depth == 0 && !layout.continued then
      let leading := line.takeWhile Lexeme.isBlank
      match line.drop leading.length with
      | [] => .ok ([], layout)
      | 0x23 :: _ => .ok ([], layout)
      | _ => do
        let (marks, layout) ← reindent file ⟨number, leading.length + 1⟩
          (indentWidth leading) layout
        let (tokens, layout) ← readToEnd file number line leading.length layout
        return (marks ++ tokens, layout)
    else readToEnd file number line 0 layout

/-- The tokens of numbered lines. -/
def readLines (file : Text) : List (Nat × Text) → Layout → Except SyntaxError (List Token × Layout)
  | [], layout => .ok ([], layout)
  | (number, line) :: rest, layout => do
    let (tokens, layout) ← readLine file number line layout
    let (more, layout) ← readLines file rest layout
    return (tokens ++ more, layout)

/-- Closes an input of `count` lines: nothing may be open, and every indentation is left. -/
def close (file : Text) (count : Nat) (layout : Layout) : Except SyntaxError (List Token) :=
  match layout.pending with
  | some pending => .error ⟨file, pending.start, .unterminatedTripleString⟩
  | none =>
    if layout.depth > 0 || layout.continued then .error ⟨file, ⟨count, 1⟩, .unfinishedStatement⟩
    else .ok ((layout.indents.drop 1).map fun _ => mark file ⟨count, 1⟩ .dedent "<DEDENT>")

end Layout

/-- A source text with the name of its file. -/
structure Source where
  text : Text
  file : Text
  deriving DecidableEq, Repr

namespace Source

/-- The physical lines of the source. -/
def lines (source : Source) : List Text := Lines.ofText source.text

/-- All tokens of the source but the end. -/
def readTokens (source : Source) : Except SyntaxError (List Token) := do
  let (tokens, layout) ← Layout.readLines source.file (Lines.numbered source.lines) {}
  let closing ← layout.close source.file source.lines.length
  return tokens ++ closing

/-- The end token stands on the line after the last. -/
def endToken (source : Source) : Token :=
  Layout.mark source.file ⟨source.lines.length + 1, 1⟩ .done []

/-- The tokens of several sources in reading order, one end token after the last of them. -/
def readAllTokens : List Source → Except SyntaxError (List Token)
  | [] => .ok [Layout.mark [] ⟨2, 1⟩ .done []]
  | [source] => do return (← source.readTokens) ++ [source.endToken]
  | source :: rest => do
    let tokens ← source.readTokens
    let more ← readAllTokens rest
    return tokens ++ more

/-- The tokens of sources that were stacked in the given order: the last one is read first. -/
def stackedTokens (sources : List Source) : Except SyntaxError (List Token) :=
  readAllTokens sources.reverse

end Source

/-- A reader over tokens; beyond the last token it sees the last token again. -/
structure TokenReader where
  tokens : List Token
  position : Nat := 0

namespace TokenReader

/-- The token `ahead` places further on. -/
def peek (reader : TokenReader) (ahead : Nat) : Token :=
  (reader.tokens[reader.position + ahead]?).getD (reader.tokens.getLastD default)

/-- The current token, and the reader behind it. -/
def next (reader : TokenReader) : Token × TokenReader :=
  match reader.tokens[reader.position]? with
  | some token => (token, { reader with position := reader.position + 1 })
  | none => (reader.tokens.getLastD default, reader)

end TokenReader

end NameInference
