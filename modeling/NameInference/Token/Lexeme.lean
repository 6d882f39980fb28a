import NameInference.Token.Fault

/-!
# Lexemes

What the bytes at one place of a line stand for, decided from those bytes alone. Every answer takes
at least the first byte, so a line is read in as many steps as it has bytes at most. Operators and
numbers are read as long as possible; a string that is not closed on its line is either a fault or,
with three quotes, left open. The text of an identifier is its bytes as they are written: it is not
brought into a Unicode normal form, which makes no difference for identifiers in ASCII.
-/

namespace NameInference

/-- What begins at a byte of a line. A token takes that byte and `more` further ones. -/
inductive Lexeme where
  | blank
  | comment
  | continuation
  | token (kind : TokenKind) (more : Nat)
  | openString (kind : TokenKind) (quote : UInt8)
  | fault (fault : SyntaxFault)
  deriving DecidableEq, Repr

namespace Lexeme

/-- Blanks, tabs and form feeds separate tokens. -/
def isBlank (b : UInt8) : Bool := b == 0x20 || b == 0x09 || b == 0x0C

/-- Bytes that may begin a name: letters, the underscore and everything outside ASCII. -/
def startsName (b : UInt8) : Bool := Byte.isLetter b || b == 0x5F || 0x80 ≤ b

/-- Bytes that may continue a name. -/
def continuesName (b : UInt8) : Bool := startsName b || Byte.isDigit b

/-- A single or a double quote. -/
def isQuote (b : UInt8) : Bool := b == 0x22 || b == 0x27

/-- Letters that may stand before the quotes of a string: `b`, `r`, `u` and `f` in either case. -/
def isStringLetter (b : UInt8) : Bool :=
  [0x62, 0x42, 0x72, 0x52, 0x75, 0x55, 0x66, 0x46].contains b

/-- Letters that make a string a byte string. -/
def isBytesLetter (b : UInt8) : Bool := b == 0x62 || b == 0x42

/-- The words that are not names. -/
def keywords : List (String × TokenKind) :=
  [("def", .kwDef), ("return", .kwReturn), ("del", .kwDel), ("if", .kwIf), ("else", .kwElse),
   ("elif", .kwElif), ("while", .kwWhile), ("for", .kwFor), ("in", .kwIn), ("break", .kwBreak),
   ("continue", .kwContinue), ("pass", .kwPass), ("try", .kwTry), ("except", .kwExcept),
   ("finally", .kwFinally), ("with", .kwWith), ("as", .kwAs), ("import", .kwImport),
   ("from", .kwFrom), ("class", .kwClass), ("async", .kwAsync), ("assert", .kwAssert),
   ("raise", .kwRaise), ("global", .kwGlobal), ("nonlocal", .kwNonlocal), ("yield", .kwYield),
   ("await", .kwAwait), ("is", .kwIs), ("and", .kwAnd), ("or", .kwOr), ("not", .kwNot),
   ("lambda", .kwLambda), ("True", .boolLit), ("False", .boolLit), ("None", .noneLit)]

/-- The bytes of a table of spellings. -/
def inBytes (table : List (String × TokenKind)) : List (Text × TokenKind) :=
  table.map fun entry => (Text.ofString entry.1, entry.2)

/-- The kind of a word: a keyword, or else a name. -/
def wordKind (word : Text) : TokenKind := ((inBytes keywords).lookup word).getD .ident

/-- Operators and brackets, longer spellings before their beginnings. -/
def operators : List (String × TokenKind) :=
  [("...", .ellipsis), ("**=", .starStarEqual), ("//=", .slashSlashEqual), ("<<=", .lshiftEqual),
   (">>=", .rshiftEqual), ("->", .arrow), (":=", .colonEqual), ("+=", .plusEqual),
   ("-=", .minusEqual), ("*=", .starEqual), ("/=", .slashEqual), ("%=", .percentEqual),
   ("@=", .atEqual), ("&=", .ampEqual), ("^=", .caretEqual), ("|=", .pipeEqual), ("==", .eqEq),
   ("!=", .notEq), ("<=", .le), (">=", .ge), ("**", .starStar), ("//", .slashSlash),
   ("<<", .lshift), (">>", .rshift), ("(", .lparen), (")", .rparen), ("[", .lbracket),
   ("]", .rbracket), ("\x7b", .lbrace), ("\x7d", .rbrace), (":", .colon), (";", .semicolon),
   (",", .comma), ("=", .equal), ("+", .plus), ("-", .minus), ("*", .star), ("/", .slash),
   ("%", .percent), ("@", .atSign), ("&", .amp), ("^", .caret), ("~", .tilde), ("|", .pipe),
   ("<", .lt), (">", .gt), (".", .dot)]

/-- How many bytes stand before the three closing quotes. A backslash hides the byte after it. -/
def tripleClose? (quote : UInt8) : Text → Option Nat
  | [] => none
  | [_] => none
  | b :: c :: rest =>
    if b == 0x5C then (tripleClose? quote rest).map (· + 2)
    else if b == quote && c == quote && rest.head? == some quote then some 0
    else (tripleClose? quote (c :: rest)).map (· + 1)

/-- How many bytes there are up to and including the closing quote. A backslash hides the byte after
it. -/
def quoteClose? (quote : UInt8) : Text → Option Nat
  | [] => none
  | [b] => if b == quote then some 1 else none
  | b :: c :: rest =>
    if b == 0x5C then (quoteClose? quote rest).map (· + 2)
    else if b == quote then some 1
    else (quoteClose? quote (c :: rest)).map (· + 1)

/-- A string whose opening quote is preceded by `letters` and followed by `rest`. -/
def ofQuote (letters : Text) (quote : UInt8) (rest : Text) : Lexeme :=
  let kind : TokenKind := if letters.any isBytesLetter then .bytes else .string
  match rest with
  | b :: c :: body =>
    if b == quote && c == quote then
      match tripleClose? quote body with
      | some inside => .token kind (letters.length + inside + 5)
      | none => .openString kind quote
    else
      match quoteClose? quote rest with
      | some length => .token kind (letters.length + length)
      | none => .fault .unterminatedString
  | _ =>
    match quoteClose? quote rest with
    | some length => .token kind (letters.length + length)
    | none => .fault .unterminatedString

/-- The first bytes that are digits of the given sort or underscores. -/
def digits (isDigit : UInt8 → Bool) (t : Text) : Text := t.takeWhile fun b => isDigit b || b == 0x5F

/-- The letter after a leading zero that announces another base. -/
def isBaseLetter (b : UInt8) : Bool := [0x78, 0x58, 0x6F, 0x4F, 0x62, 0x42].contains b

/-- The length of a decimal point and the digits after it; zero if there is none. -/
def fractionLength : Text → Nat
  | 0x2E :: rest => 1 + (digits Byte.isDigit rest).length
  | _ => 0

/-- The length of an exponent; zero unless a digit follows the letter and its sign. -/
def exponentLength : Text → Nat
  | e :: rest =>
    if e == 0x65 || e == 0x45 then
      let signed := match rest with
        | s :: _ => s == 0x2B || s == 0x2D
        | [] => false
      let rest := if signed then rest.drop 1 else rest
      match rest with
      | d :: _ =>
        if Byte.isDigit d then (if signed then 2 else 1) + (digits Byte.isDigit rest).length
        else 0
      | [] => 0
    else 0
  | [] => 0

/-- Whether the imaginary suffix comes next. -/
def imaginaryNext : Text → Bool
  | b :: _ => b == 0x6A || b == 0x4A
  | [] => false

/-- Kind and length of the number at the front of a text: a base form, or digits with an optional
fraction, an optional exponent and an optional imaginary suffix. -/
def number (t : Text) : TokenKind × Nat :=
  let based := match t with
    | 0x30 :: b :: _ => isBaseLetter b
    | _ => false
  if based then (.int, 2 + (digits Byte.isHexDigit (t.drop 2)).length)
  else
    let whole := (digits Byte.isDigit t).length
    let fraction := fractionLength (t.drop whole)
    let exponent := exponentLength (t.drop (whole + fraction))
    let length := whole + fraction + exponent
    if imaginaryNext (t.drop length) then (.imag, length + 1)
    else (if fraction + exponent == 0 then .int else .float, length)

/-- Whether a number begins with `b` and goes on with `rest`. -/
def startsNumber (b : UInt8) (rest : Text) : Bool :=
  Byte.isDigit b || (b == 0x2E && (rest.head?.map Byte.isDigit).getD false)

/-- The longest operator at the front of `b :: rest`. -/
def ofOperator (b : UInt8) (rest : Text) : Lexeme :=
  match (inBytes operators).find? fun entry => entry.1.isPrefixOf (b :: rest) with
  | some (spelling, kind) => .token kind (spelling.length - 1)
  | none => .fault (.unexpectedByte b)

/-- A word: the byte `b` and all that continues a name. -/
def ofWord (b : UInt8) (rest : Text) : Lexeme :=
  let more := rest.takeWhile continuesName
  .token (wordKind (b :: more)) more.length

/-- What begins with `b` and goes on with `rest`, the remaining bytes of the line. -/
def ofBytes (b : UInt8) (rest : Text) : Lexeme :=
  if isBlank b then .blank
  else if b == 0x23 then .comment
  else if b == 0x5C then (if rest.isEmpty then .continuation else .fault .afterContinuation)
  else
    let letters := ((b :: rest).take 2).takeWhile isStringLetter
    match (b :: rest).drop letters.length with
    | quote :: after =>
      if isQuote quote then ofQuote letters quote after
      else if startsNumber b rest then
        let (kind, length) := number (b :: rest)
        .token kind (length - 1)
      else if startsName b then ofWord b rest
      else ofOperator b rest
    | [] => ofWord b rest

end Lexeme

end NameInference
