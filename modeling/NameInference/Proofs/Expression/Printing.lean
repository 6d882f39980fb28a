import NameInference.Token.Lexeme
import NameInference.Proofs.Syntax.Reads

/-!
# Printing expressions

Expressions of names, decimal integers, operators, attributes, calls and subscripts, and their text
on one line. An operand is put in parentheses exactly if it binds looser than its place requires;
words and symbols of operators stand between single blanks. An expression is printed as a sequence
of pieces, so that its symbols and its bytes are both read off one definition.
-/

namespace NameInference

/-- An ASCII identifier that is not a keyword. -/
structure Identifier where
  first : UInt8
  more : Text
  starts : Byte.isLetter first = true ∨ first = 0x5F
  continues : ∀ b ∈ more, Byte.isLetter b = true ∨ Byte.isDigit b = true ∨ b = 0x5F
  notKeyword : ∀ entry ∈ Lexeme.keywords, Text.ofString entry.1 ≠ first :: more

def Identifier.text (id : Identifier) : Text := id.first :: id.more

/-- A decimal integer literal: a digit, then digits and underscores. -/
structure Numeral where
  first : UInt8
  more : Text
  starts : Byte.isDigit first = true
  continues : ∀ b ∈ more, Byte.isDigit b = true ∨ b = 0x5F

def Numeral.text (n : Numeral) : Text := n.first :: n.more

/-- Expressions of operators, attributes, calls and subscripts over names and integers. A Boolean
expression has at least two operands and a comparison at least one operator. -/
inductive Expr where
  | name (id : Identifier)
  | int (literal : Numeral)
  | unary (op : UnaryOp) (operand : Expr)
  | binary (op : BinaryOp) (left right : Expr)
  | boolean (op : BoolOp) (first second : Expr) (more : List Expr)
  | compare (left : Expr) (op : CompareOp) (right : Expr) (more : List (CompareOp × Expr))
  | conditional (body test orElse : Expr)
  | attr (value : Expr) (member : Identifier)
  | call (callee : Expr) (args : List Expr)
  | subscript (value index : Expr)

/-- The levels of the grammar, from the loosest to the tightest. -/
inductive Precedence where
  | test | orTest | andTest | notTest | comparison | bitOr | bitXor | bitAnd | shift | additive
  | multiplicative | unary | power | primary
  deriving DecidableEq, Repr

namespace Precedence

/-- The number of a level, counted from the loosest. -/
def rank : Precedence → Nat
  | test => 0 | orTest => 1 | andTest => 2 | notTest => 3 | comparison => 4 | bitOr => 5
  | bitXor => 6 | bitAnd => 7 | shift => 8 | additive => 9 | multiplicative => 10 | unary => 11
  | power => 12 | primary => 13

/-- Whether `p` binds looser than `q`. -/
def looser (p q : Precedence) : Bool := p.rank < q.rank

end Precedence

def UnaryOp.precedence : UnaryOp → Precedence
  | .not => .notTest
  | .neg | .pos | .invert => .unary

def BinaryOp.precedence : BinaryOp → Precedence
  | .bitOr => .bitOr
  | .bitXor => .bitXor
  | .bitAnd => .bitAnd
  | .lshift | .rshift => .shift
  | .add | .sub => .additive
  | .mul | .matMul | .div | .floorDiv | .mod => .multiplicative
  | .pow => .power

/-- What the left operand of a binary operator has to be: powers take a primary, chains go on to the
left. -/
def BinaryOp.leftPlace (op : BinaryOp) : Precedence := if op = .pow then .primary else op.precedence

/-- What the right operand of a binary operator has to be: the exponent may have signs, chains need
a tighter one. -/
def BinaryOp.rightPlace : BinaryOp → Precedence
  | .bitOr => .bitXor
  | .bitXor => .bitAnd
  | .bitAnd => .shift
  | .lshift | .rshift => .additive
  | .add | .sub => .multiplicative
  | .mul | .matMul | .div | .floorDiv | .mod | .pow => .unary

def BoolOp.precedence : BoolOp → Precedence
  | .or => .orTest
  | .and => .andTest

/-- What the operands of a Boolean operator have to be. -/
def BoolOp.place : BoolOp → Precedence
  | .or => .andTest
  | .and => .notTest

namespace Expr

def precedence : Expr → Precedence
  | name _ | int _ | attr .. | call .. | subscript .. => .primary
  | unary op _ => op.precedence
  | binary op _ _ => op.precedence
  | boolean op _ _ _ => op.precedence
  | compare .. => .comparison
  | conditional .. => .test

def isInt : Expr → Bool
  | int _ => true
  | _ => false

end Expr

namespace Symbol

def openParen : Symbol := (.lparen, "(")

def closeParen : Symbol := (.rparen, ")")

def openBracket : Symbol := (.lbracket, "[")

def closeBracket : Symbol := (.rbracket, "]")

def comma : Symbol := (.comma, ",")

def dot : Symbol := (.dot, ".")

def ifWord : Symbol := (.kwIf, "if")

def elseWord : Symbol := (.kwElse, "else")

def ident (id : Identifier) : Symbol := (.ident, id.text)

def int (literal : Numeral) : Symbol := (.int, literal.text)

end Symbol

/-- A blank, or a symbol. -/
inductive Piece where
  | blank
  | symbol (s : Symbol)

namespace Piece

def bytes : Piece → Text
  | blank => [0x20]
  | symbol s => s.2

def symbol? : Piece → Option Symbol
  | blank => none
  | symbol s => some s

@[simp] theorem filterMap_blank (pieces : List Piece) :
    (blank :: pieces).filterMap symbol? = pieces.filterMap symbol? := rfl

@[simp] theorem filterMap_symbol (s : Symbol) (pieces : List Piece) :
    (symbol s :: pieces).filterMap symbol? = s :: pieces.filterMap symbol? := rfl

/-- Pieces in parentheses if these are needed. -/
def enclosed (needed : Bool) (pieces : List Piece) : List Piece :=
  if needed then symbol Symbol.openParen :: pieces ++ [symbol Symbol.closeParen] else pieces

/-- Symbols between blanks. -/
def spaced (symbols : List Symbol) : List Piece :=
  blank :: (symbols.map symbol).intersperse blank ++ [blank]

end Piece

open Piece

def UnaryOp.symbol : UnaryOp → Symbol
  | .not => (.kwNot, "not")
  | .neg => (.minus, "-")
  | .pos => (.plus, "+")
  | .invert => (.tilde, "~")

def BinaryOp.symbol : BinaryOp → Symbol
  | .add => (.plus, "+")
  | .sub => (.minus, "-")
  | .mul => (.star, "*")
  | .matMul => (.atSign, "@")
  | .div => (.slash, "/")
  | .floorDiv => (.slashSlash, "//")
  | .mod => (.percent, "%")
  | .pow => (.starStar, "**")
  | .lshift => (.lshift, "<<")
  | .rshift => (.rshift, ">>")
  | .bitAnd => (.amp, "&")
  | .bitOr => (.pipe, "|")
  | .bitXor => (.caret, "^")

def BoolOp.symbol : BoolOp → Symbol
  | .and => (.kwAnd, "and")
  | .or => (.kwOr, "or")

def CompareOp.symbols : CompareOp → List Symbol
  | .eq => [(.eqEq, "==")]
  | .notEq => [(.notEq, "!=")]
  | .lt => [(.lt, "<")]
  | .le => [(.le, "<=")]
  | .gt => [(.gt, ">")]
  | .ge => [(.ge, ">=")]
  | .is => [(.kwIs, "is")]
  | .isNot => [(.kwIs, "is"), (.kwNot, "not")]
  | .in => [(.kwIn, "in")]
  | .notIn => [(.kwNot, "not"), (.kwIn, "in")]

namespace Expr

mutual

/-- The pieces of an expression, without parentheses around the whole. -/
def pieces : Expr → List Piece
  | name id => [.symbol (Symbol.ident id)]
  | int literal => [.symbol (Symbol.int literal)]
  | unary op operand =>
    .symbol op.symbol :: .blank :: enclosed (operand.precedence.looser op.precedence) operand.pieces
  | binary op left right =>
    enclosed (left.precedence.looser op.leftPlace) left.pieces ++ spaced [op.symbol] ++
      enclosed (right.precedence.looser op.rightPlace) right.pieces
  | boolean op first second more =>
    enclosed (first.precedence.looser op.place) first.pieces ++ spaced [op.symbol] ++
      enclosed (second.precedence.looser op.place) second.pieces ++
        listed (spaced [op.symbol]) op.place more
  | compare left op right more =>
    enclosed (left.precedence.looser .bitOr) left.pieces ++ spaced op.symbols ++
      enclosed (right.precedence.looser .bitOr) right.pieces ++ compared more
  | conditional body test orElse =>
    enclosed (body.precedence.looser .orTest) body.pieces ++ spaced [Symbol.ifWord] ++
      enclosed (test.precedence.looser .orTest) test.pieces ++ spaced [Symbol.elseWord] ++
        orElse.pieces
  | attr value member =>
    enclosed (value.precedence.looser .primary || value.isInt) value.pieces ++
      [.symbol Symbol.dot, .symbol (Symbol.ident member)]
  | call callee [] =>
    enclosed (callee.precedence.looser .primary) callee.pieces ++
      [.symbol Symbol.openParen, .symbol Symbol.closeParen]
  | call callee (first :: more) =>
    enclosed (callee.precedence.looser .primary) callee.pieces ++ .symbol Symbol.openParen ::
      first.pieces ++
      listed [.symbol Symbol.comma, .blank] .test more ++ [.symbol Symbol.closeParen]
  | subscript value index =>
    enclosed (value.precedence.looser .primary) value.pieces ++ .symbol Symbol.openBracket ::
      index.pieces ++ [.symbol Symbol.closeBracket]

/-- Further operands of one place, each behind a separator. -/
def listed (separator : List Piece) (place : Precedence) : List Expr → List Piece
  | [] => []
  | e :: rest => separator ++ enclosed (e.precedence.looser place) e.pieces ++
    listed separator place rest

/-- Further comparisons, each behind its operator. -/
def compared : List (CompareOp × Expr) → List Piece
  | [] => []
  | (op, e) :: rest =>
    spaced op.symbols ++ enclosed (e.precedence.looser .bitOr) e.pieces ++ compared rest

end

/-- The pieces of an expression at a place, in parentheses if it binds looser than the place
requires. -/
def piecesAt (place : Precedence) (e : Expr) : List Piece :=
  enclosed (e.precedence.looser place) e.pieces

theorem listed_eq (separator : List Piece) (place : Precedence) (es : List Expr) :
    listed separator place es = es.flatMap fun e => separator ++ e.piecesAt place := by
  induction es with
  | nil => rfl
  | cons e es ih => simp [listed, ih, piecesAt]

theorem compared_eq (more : List (CompareOp × Expr)) :
    compared more = more.flatMap fun x => spaced x.1.symbols ++ x.2.piecesAt .bitOr := by
  induction more with
  | nil => rfl
  | cons x more ih => simp [compared, ih, piecesAt]

/-- The printed line. -/
def print (e : Expr) : Text := e.pieces.flatMap Piece.bytes

/-- The node has the shape of the expression, wherever it stands in a source. -/
inductive Shapes : Expr → Node → Prop where
  | name {id : Identifier} {span : Span} : Shapes (.name id) (.mk span .load (.name id.text))
  | int {literal : Numeral} {span : Span} :
    Shapes (.int literal) (.mk span .load (.int literal.text))
  | unary {op : UnaryOp} {e : Expr} {n : Node} {span : Span} :
      Shapes e n → Shapes (.unary op e) (.mk span .load (.unary op n))
  | binary {op : BinaryOp} {l r : Expr} {m n : Node} {span : Span} :
      Shapes l m → Shapes r n → Shapes (.binary op l r) (.mk span .load (.binary op m n))
  | boolean {op : BoolOp} {first second : Expr} {more : List Expr} {operands : List Node}
      {span : Span} : List.Forall₂ Shapes (first :: second :: more) operands →
      Shapes (.boolean op first second more) (.mk span .load (.boolean op operands))
  | compare {left right : Expr} {op : CompareOp} {more : List (CompareOp × Expr)} {n : Node}
      {rest : List (Comparison Node)} {span : Span} :
      Shapes left n → rest.map (·.op) = op :: more.map (·.1) →
      List.Forall₂ Shapes (right :: more.map (·.2)) (rest.map (·.operand)) →
      Shapes (.compare left op right more) (.mk span .load (.compare n rest))
  | conditional {body test orElse : Expr} {k m n : Node} {span : Span} :
      Shapes body k → Shapes test m → Shapes orElse n →
      Shapes (.conditional body test orElse) (.mk span .load (.conditional k m n))
  | attr {value : Expr} {member : Identifier} {n : Node} {position : Position} {span : Span} :
      Shapes value n → Shapes (.attr value member) (.mk span .load (.attr n member.text position))
  | call {callee : Expr} {args : List Expr} {n : Node} {nodes : List Node} {span : Span} :
      Shapes callee n → List.Forall₂ Shapes args nodes →
      Shapes (.call callee args) (.mk span .load (.call n nodes []))
  | subscript {value index : Expr} {m n : Node} {span : Span} :
      Shapes value m → Shapes index n →
      Shapes (.subscript value index) (.mk span .load (.subscript m n))

end Expr

end NameInference
