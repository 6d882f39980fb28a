import NameInference.Syntax.Form

/-!
# Operator tokens

Which operators the tokens stand for, level by level, and which tokens can begin an expression.
-/

namespace NameInference

namespace TokenKind

/-- Tokens with which an expression can begin. -/
def startsExpression : TokenKind → Bool
  | ident | int | float | imag | string | bytes | boolLit | noneLit | ellipsis
  | lparen | lbracket | lbrace | minus | plus | tilde | kwNot | kwLambda | kwAwait | star => true
  | _ => false

/-- The operation of an augmented assignment. -/
def augmented? : TokenKind → Option BinaryOp
  | plusEqual => some .add
  | minusEqual => some .sub
  | starEqual => some .mul
  | atEqual => some .matMul
  | slashEqual => some .div
  | slashSlashEqual => some .floorDiv
  | percentEqual => some .mod
  | starStarEqual => some .pow
  | lshiftEqual => some .lshift
  | rshiftEqual => some .rshift
  | ampEqual => some .bitAnd
  | pipeEqual => some .bitOr
  | caretEqual => some .bitXor
  | _ => none

def bitOr? : TokenKind → Option BinaryOp
  | pipe => some .bitOr
  | _ => none

def bitXor? : TokenKind → Option BinaryOp
  | caret => some .bitXor
  | _ => none

def bitAnd? : TokenKind → Option BinaryOp
  | amp => some .bitAnd
  | _ => none

def shift? : TokenKind → Option BinaryOp
  | lshift => some .lshift
  | rshift => some .rshift
  | _ => none

def additive? : TokenKind → Option BinaryOp
  | plus => some .add
  | minus => some .sub
  | _ => none

def multiplicative? : TokenKind → Option BinaryOp
  | star => some .mul
  | slash => some .div
  | slashSlash => some .floorDiv
  | percent => some .mod
  | atSign => some .matMul
  | _ => none

def sign? : TokenKind → Option UnaryOp
  | minus => some .neg
  | plus => some .pos
  | tilde => some .invert
  | _ => none

/-- Comparison operators of one token; `is` may be followed by `not`. -/
def comparison? : TokenKind → Option CompareOp
  | eqEq => some .eq
  | notEq => some .notEq
  | lt => some .lt
  | le => some .le
  | gt => some .gt
  | ge => some .ge
  | kwIn => some .in
  | kwIs => some .is
  | _ => none

end TokenKind

end NameInference
