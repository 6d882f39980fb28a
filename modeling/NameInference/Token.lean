import NameInference.Text

/-!
# Tokens

Positions are a line and a column, both counted from one, columns in bytes. A span is half open. A
token knows its kind, its text, the file it was read from and its span.
-/

namespace NameInference

/-- A line and a column, ordered by line first. -/
structure Position where
  line : Nat
  col : Nat
  deriving DecidableEq, Hashable, Repr, Inhabited

namespace Position

/-- Strict order of the source. -/
def before (p q : Position) : Bool := p.line < q.line || (p.line == q.line && p.col < q.col)

/-- Order of the source. -/
def upTo (p q : Position) : Bool := !q.before p

end Position

/-- From `start` up to, and not including, `stop`. -/
structure Span where
  start : Position
  stop : Position
  deriving DecidableEq, Repr, Inhabited

/-- Every kind of token: end and layout, keywords, operators, brackets, names and literals. -/
inductive TokenKind where
  | done | newline | indent | dedent
  | kwDef | kwReturn | kwDel | kwIf | kwElse | kwElif | kwWhile | kwFor | kwIn | kwBreak
  | kwContinue | kwPass | kwTry | kwExcept | kwFinally | kwWith | kwAs | kwImport | kwFrom
  | kwClass | kwAsync | kwAssert | kwRaise | kwGlobal | kwNonlocal | kwYield | kwAwait
  | kwIs | kwAnd | kwOr | kwNot | kwLambda
  | atSign | arrow | colon | colonEqual | semicolon | comma | equal
  | plusEqual | plus | minusEqual | minus | starEqual | star | starStarEqual | starStar
  | slashEqual | slash | slashSlashEqual | slashSlash | percentEqual | percent | atEqual
  | lshiftEqual | lshift | rshiftEqual | rshift | ampEqual | amp | caretEqual | caret | tilde
  | pipeEqual | pipe | eqEq | notEq | lt | le | gt | ge | dot
  | lparen | rparen | lbracket | rbracket | lbrace | rbrace
  | ident | int | float | imag | string | bytes | boolLit | noneLit | ellipsis
  deriving DecidableEq, Repr, Inhabited

namespace TokenKind

/-- The name under which a kind is shown in messages. -/
def name : TokenKind → String
  | done => "End" | newline => "Newline" | indent => "Indent" | dedent => "Dedent" | kwDef => "Def"
  | kwReturn => "Return" | kwDel => "Del" | kwIf => "If" | kwElse => "Else" | kwElif => "Elif"
  | kwWhile => "While" | kwFor => "For" | kwIn => "In" | kwBreak => "Break"
  | kwContinue => "Continue" | kwPass => "Pass" | kwTry => "Try" | kwExcept => "Except"
  | kwFinally => "Finally" | kwWith => "With" | kwAs => "As" | kwImport => "Import"
  | kwFrom => "From" | kwClass => "Class" | kwAsync => "Async" | kwAssert => "Assert"
  | kwRaise => "Raise" | kwGlobal => "Global" | kwNonlocal => "Nonlocal" | kwYield => "Yield"
  | kwAwait => "Await" | kwIs => "Is" | kwAnd => "And" | kwOr => "Or" | kwNot => "Not"
  | kwLambda => "Lambda" | atSign => "At" | arrow => "Arrow" | colon => "Colon"
  | colonEqual => "ColonEqual" | semicolon => "Semicolon" | comma => "Comma" | equal => "Equal"
  | plusEqual => "PlusEqual" | plus => "Plus" | minusEqual => "MinusEqual" | minus => "Minus"
  | starEqual => "StarEqual" | star => "Star" | starStarEqual => "StarStarEqual"
  | starStar => "StarStar" | slashEqual => "SlashEqual" | slash => "Slash"
  | slashSlashEqual => "SlashSlashEqual" | slashSlash => "SlashSlash"
  | percentEqual => "PercentEqual" | percent => "Percent" | atEqual => "AtEqual"
  | lshiftEqual => "LShiftEqual" | lshift => "LShift" | rshiftEqual => "RShiftEqual"
  | rshift => "RShift" | ampEqual => "AmpEqual" | amp => "Amp" | caretEqual => "CaretEqual"
  | caret => "Caret" | tilde => "Tilde" | pipeEqual => "PipeEqual" | pipe => "Pipe" | eqEq => "EqEq"
  | notEq => "NotEq" | lt => "Lt" | le => "Le" | gt => "Gt" | ge => "Ge" | dot => "Dot"
  | lparen => "LParen" | rparen => "RParen" | lbracket => "LBracket" | rbracket => "RBracket"
  | lbrace => "LBrace" | rbrace => "RBrace" | ident => "Ident" | int => "Int" | float => "Float"
  | imag => "Imag" | string => "String" | bytes => "Bytes" | boolLit => "BoolLit"
  | noneLit => "NoneLit" | ellipsis => "Ellipsis"

/-- Tokens that stand for the arrangement of lines and hold no source bytes of their own, and the
end. -/
def isLayout : TokenKind → Bool
  | done | newline | indent | dedent => true
  | _ => false

/-- Brackets that join the lines up to their closer. -/
def opensBracket : TokenKind → Bool
  | lparen | lbracket | lbrace => true
  | _ => false

/-- Closers of brackets, whether or not one is open. -/
def closesBracket : TokenKind → Bool
  | rparen | rbracket | rbrace => true
  | _ => false

end TokenKind

/-- One token of a source. -/
structure Token where
  kind : TokenKind
  text : Text
  file : Text
  span : Span
  deriving DecidableEq, Repr, Inhabited

namespace Token

/-- Where the token begins. -/
def start (t : Token) : Position := t.span.start

/-- Where the token ends. -/
def stop (t : Token) : Position := t.span.stop

end Token

end NameInference
