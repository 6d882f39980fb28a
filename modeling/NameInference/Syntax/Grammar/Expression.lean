import NameInference.Syntax.Cursor
import NameInference.Syntax.Operator
import NameInference.Syntax.Quoted

/-!
# The grammar of expressions

Each rule is a definition over `Inner`, the rules that may be used once a token has been taken. The
rules are closed by recursion on the number of tokens ahead, which every use of `Inner` lowers.
-/

namespace NameInference

namespace Grammar

open Parse

/-- The levels at which an expression can be nested in a larger one. -/
inductive Level where
  | test | orTest | notTest | bitwiseOr | factor
  deriving DecidableEq, Repr

/-- The rules for expressions behind a token that has been taken. -/
abbrev Inner := Level → Parse Node

/-- An expression from `start` to the last token taken. -/
def node (start : Position) (form : Form Node) : Parse Node := do
  return .mk (← spanFrom start) .load form

/-- A comprehension goes on with `for` or `async for`. -/
def atClause : Parse Bool := do
  let kind ← kind
  return kind == .kwFor || (kind == .kwAsync && (← nextKind) == .kwFor)

/-- A tuple if a comma follows the first element, else that element. -/
def tupleAfter (goesOn : TokenKind → Bool) (element : Parse Node) (first : Node) : Parse Node := do
  if (← kind) != .comma then return first
  let more ← afterCommas goesOn element
  node first.start (.tuple (first :: more))

variable (inner : Inner)

/-- A starred expression behind its star. -/
def starred (start : Position) (level : Level) : Parse Node := do
  node start (.starred (← inner level))

/-- `name := value`, or what `test` reads. -/
def namedOr (test : Parse Node) : Parse Node := do
  if (← kind) == .ident && (← nextKind) == .colonEqual then
    let name ← take
    let _ ← take
    let value ← inner .test
    node name.start (.named (name.toName .store) value)
  else test

/-- An element of a display or of a list of expressions: starred, named or plain. -/
def element (test : Parse Node) : Parse Node := do
  if (← kind) == .star then
    let star ← take
    starred inner star.start .bitwiseOr
  else namedOr inner test

/-- Expressions between commas; two or more, or a trailing comma, make a tuple. -/
def testList (test : Parse Node) : Parse Node := do
  let first ← element inner test
  tupleAfter TokenKind.startsExpression (element inner test) first

/-- What a loop binds: stops before `in`. -/
def targetList (bitwiseOr : Parse Node) : Parse Node := do
  let one : Parse Node := do
    if (← kind) == .star then
      let star ← take
      starred inner star.start .bitwiseOr
    else bitwiseOr
  let first ← one
  return (← tupleAfter TokenKind.startsExpression one first).withUsage .store

/-- `yield`, `yield from value` or `yield values`. -/
def yieldExpr : Parse Node := do
  let yield ← take
  if ← accept .kwFrom then
    let value ← inner .test
    node yield.start (.yield true (some value))
  else if (← kind).startsExpression then
    let value ← testList inner (inner .test)
    node yield.start (.yield false (some value))
  else node yield.start (.yield false none)

/-- `yield` or a list of expressions. -/
def yieldOr (tests : Parse Node) : Parse Node := do
  if (← kind) == .kwYield then yieldExpr inner else tests

/-- An item of a parameter list. -/
inductive ParamItem where
  | slash
  | bareStar
  | param (span : Span) (kind : ParamKind) (name : Node) (hint default : Option Node)

/-- A parameter that stands before a slash cannot be named by a keyword. -/
def ParamItem.beforeSlash : Node → Node
  | .mk span usage (.param .positionalOrKeyword name hint default) =>
    .mk span usage (.param .positionalOnly name hint default)
  | p => p

/-- The parameters of the items, read from left to right. A slash makes what stands before it
positional only; a star makes what follows it keyword only. -/
def ParamItem.resolve (items : List ParamItem) : List Node :=
  (items.foldl (fun (params, afterStar) item =>
    match item with
    | .slash => (params.map ParamItem.beforeSlash, afterStar)
    | .bareStar => (params, true)
    | .param span kind name hint default =>
      let kind := if kind == .positionalOrKeyword && afterStar then .keywordOnly else kind
      (params ++ [.mk span .load (.param kind name hint default)],
        afterStar || kind == .varPositional)) ([], false)).1

/-- A parameter behind its stars. -/
def namedParam (start : Position) (kind : ParamKind) (hinted : Bool) : Parse ParamItem := do
  let name ← expect .ident .parameterName
  let hint ← if hinted then behind .colon (inner .test) else pure none
  let default ← behind .equal (inner .test)
  return .param (← spanFrom start) kind (name.toName .store) hint default

/-- One item of a parameter list. -/
def paramItem (hinted : Bool) : Parse ParamItem := do
  let first ← token
  if ← accept .slash then return .slash
  if ← accept .starStar then namedParam inner first.start .varKeyword hinted
  else if ← accept .star then
    if (← kind) != .ident then return .bareStar
    namedParam inner first.start .varPositional hinted
  else namedParam inner first.start .positionalOrKeyword hinted

/-- The parameters before `closer`. -/
def params (closer : TokenKind) (hinted : Bool) : Parse (List Node) := do
  return ParamItem.resolve (← betweenCommas (· != closer) (paramItem inner hinted))

/-- One `for` of a comprehension with its conditions. -/
def clause : Parse (Clause Node) := do
  let isAsync ← accept .kwAsync
  let _ ← expect .kwFor .keywordFor
  let target ← targetList inner (inner .bitwiseOr)
  let _ ← expect .kwIn .keywordIn
  let iterable ← inner .orTest
  let conditions ← many (behind .kwIf (inner .orTest))
  return ⟨isAsync, target, iterable, conditions⟩

/-- The clauses behind the element of a comprehension. -/
def comprehension (kind : ComprehensionKind) (first : Node) (value : Option Node) : Parse Node := do
  let clauses ← many do
    if ← atClause then return some (← clause inner) else return none
  node first.start (.comprehension kind first value clauses)

/-- A comprehension between brackets, the first of which is at `opener`. -/
def bracketed (opener : Position) (kind : ComprehensionKind) (first : Node) (value : Option Node)
    (closer : TokenKind) (what : Expectation) : Parse Node := do
  let .mk _ _ form ← comprehension inner kind first value
  let _ ← expect closer what
  node opener form

/-- An argument of a call or of a class header. -/
inductive Argument where
  | positional (value : Node)
  | keyword (arg : Keyword Node)

/-- One argument. -/
def argument : Parse Argument := do
  let first ← token
  if ← accept .star then return .positional (← starred inner first.start .test)
  if ← accept .starStar then return .keyword ⟨[], first.start, ← inner .test⟩
  if first.kind == .ident && (← nextKind) == .equal then
    let _ ← take
    let _ ← take
    return .keyword ⟨first.text, first.start, ← inner .test⟩
  let value ← namedOr inner (inner .test)
  if ← atClause then return .positional (← comprehension inner .generator value none)
  return .positional value

/-- The arguments before a closing parenthesis: the positional ones and the keywords. -/
def arguments : Parse (List Node × List (Keyword Node)) := do
  let all ← betweenCommas (· != .rparen) (argument inner)
  return (all.filterMap fun | .positional value => some value | _ => none,
    all.filterMap fun | .keyword arg => some arg | _ => none)

/-- Tokens that end a part of a slice. -/
def endsSlicePart (kind : TokenKind) : Bool := kind == .colon || kind == .comma || kind == .rbracket

/-- An expression if the current token does not end a part of a slice. -/
def slicePart : Parse (Option Node) := do
  if endsSlicePart (← kind) then return none else return some (← inner .test)

/-- The part of a slice behind its first colon, which is the current token. -/
def sliceFrom (start : Position) (lower : Option Node) : Parse Node := do
  let _ ← take
  let upper ← slicePart inner
  let step ← if ← accept .colon then slicePart inner else pure none
  node start (.slice lower upper step)

/-- An index or a slice. -/
def sliceItem : Parse Node := do
  let start ← start
  if (← kind) == .colon then sliceFrom inner start none
  else
    let lower ← element inner (inner .test)
    if (← kind) == .colon then sliceFrom inner start (some lower) else return lower

/-- What stands between the brackets of a subscription. -/
def subscripts : Parse Node := do
  let first ← sliceItem inner
  tupleAfter (· != .rbracket) (sliceItem inner) first

/-- A call, a subscription or an attribute, without the expression that it follows. -/
inductive Trailer where
  | call (args : List Node) (keywords : List (Keyword Node))
  | subscript (index : Node)
  | member (name : Text) (position : Position)

/-- The form of a trailer behind an expression. -/
def Trailer.form (base : Node) : Trailer → Form Node
  | .call args keywords => .call base args keywords
  | .subscript index => .subscript base index
  | .member name position => .attr base name position

/-- The next trailer and where it ends. -/
def trailer : Parse (Option (Trailer × Position)) := do
  let closed (t : Trailer) : Parse (Option (Trailer × Position)) := do
    return some (t, (← spanFrom default).stop)
  if ← accept .lparen then
    let (args, keywords) ← arguments inner
    let _ ← expect .rparen .closeParen
    closed (.call args keywords)
  else if ← accept .lbracket then
    let index ← subscripts inner
    let _ ← expect .rbracket .closeBracket
    closed (.subscript index)
  else if ← accept .dot then
    let name ← expect .ident .attributeName
    closed (.member name.text name.start)
  else return none

/-- An expression with its trailers around it, innermost first. -/
def withTrailers (base : Node) (trailers : List (Trailer × Position)) : Node :=
  trailers.foldl (fun e (t, stop) => .mk ⟨e.start, stop⟩ .load (t.form e)) base

/-- Adjacent literals are one literal: of bytes if one of them is, formatted if one of them is. -/
def strings : Parse Node := do
  let start ← start
  let tokens ← many do
    let kind ← kind
    if kind == .string || kind == .bytes then return some (← take) else return none
  let value := tokens.flatMap (Quoted.value ·.text)
  if tokens.any (·.kind == .bytes) then node start (.bytes value)
  else node start (.string value (tokens.any (Quoted.isFormatted ·.text)))

/-- A tuple, a generator, a `yield` or an expression in parentheses, which do not belong to its
span. -/
def parenthesized : Parse Node := do
  let opener ← take
  if ← accept .rparen then node opener.start (.tuple [])
  else if (← kind) == .kwYield then
    let value ← yieldExpr inner
    let _ ← expect .rparen .closeParen
    return value
  else
    let first ← element inner (inner .test)
    if ← atClause then bracketed inner opener.start .generator first none .rparen .closeParen
    else if (← kind) != .comma then
      let _ ← expect .rparen .closeParen
      return first
    else
      let more ← afterCommas (· != .rparen) (element inner (inner .test))
      let _ ← expect .rparen .closeParen
      node opener.start (.tuple (first :: more))

/-- A list or a list comprehension. -/
def listDisplay : Parse Node := do
  let opener ← take
  if ← accept .rbracket then node opener.start (.list [])
  else
    let first ← element inner (inner .test)
    if ← atClause then bracketed inner opener.start .list first none .rbracket .closeBracket
    else
      let more ← afterCommas (· != .rbracket) (element inner (inner .test))
      let _ ← expect .rbracket .closeBracket
      node opener.start (.list (first :: more))

/-- A further entry of a dictionary. -/
def dictEntry : Parse (Entry Node) := do
  if ← accept .starStar then return ⟨none, ← inner .bitwiseOr⟩
  let key ← inner .test
  let _ ← expect .colon .colon
  return ⟨some key, ← inner .test⟩

/-- A dictionary behind its first entry. -/
def dictAfter (opener : Position) (first : Entry Node) : Parse Node := do
  let more ← afterCommas (· != .rbrace) (dictEntry inner)
  let _ ← expect .rbrace .closeBrace
  node opener (.dict (first :: more))

/-- A set or a set comprehension behind its first element. -/
def setAfter (opener : Position) (first : Node) : Parse Node := do
  if ← atClause then bracketed inner opener .set first none .rbrace .closeBrace
  else
    let more ← afterCommas (· != .rbrace) (element inner (inner .test))
    let _ ← expect .rbrace .closeBrace
    node opener (.set (first :: more))

/-- A dictionary, a set or a comprehension of either. -/
def braceDisplay : Parse Node := do
  let opener ← take
  if ← accept .rbrace then node opener.start (.dict [])
  else if ← accept .starStar then
    let value ← inner .bitwiseOr
    dictAfter inner opener.start ⟨none, value⟩
  else
    let first ← element inner (inner .test)
    if ← accept .colon then
      let value ← inner .test
      if ← atClause then bracketed inner opener.start .dict first (some value) .rbrace .closeBrace
      else dictAfter inner opener.start ⟨some first, value⟩
    else setAfter inner opener.start first

/-- A literal of one token. -/
def literal (form : Token → Form Node) : Parse Node := do
  let t ← take
  node t.start (form t)

/-- Names, literals, displays and expressions in parentheses. -/
def atom : Parse Node := do
  match ← kind with
  | .ident => return (← take).toName .load
  | .int => literal fun t => .int t.text
  | .float => literal fun t => .float t.text
  | .imag => literal fun t => .imag t.text
  | .string | .bytes => strings
  | .boolLit => literal fun t => .bool (t.text == "True")
  | .noneLit => literal fun _ => .noneLit
  | .ellipsis => literal fun _ => .ellipsis
  | .lparen => parenthesized inner
  | .lbracket => listDisplay inner
  | .lbrace => braceDisplay inner
  | _ => reject .expectedExpression

/-- An atom with its trailers, awaited if `await` stands before it, and raised to a power if `**`
follows. -/
def power : Parse Node := do
  let start ← start
  let awaited ← accept .kwAwait
  let base ← atom inner
  let base := withTrailers base (← many (trailer inner))
  let base ← if awaited then node start (.await base) else pure base
  if ← accept .starStar then
    let exponent ← inner .factor
    node base.start (.binary .pow base exponent)
  else return base

/-- Signs before a power. -/
def factor : Parse Node := do
  let start ← start
  match (← kind).sign? with
  | none => power inner
  | some op =>
    let _ ← take
    let operand ← inner .factor
    node start (.unary op operand)

/-- Operands of one level, joined by its operators from left to right. -/
def chain (operator? : TokenKind → Option BinaryOp) (operand : Parse Node) : Parse Node := do
  let first ← operand
  let more ← many do
    match operator? (← kind) with
    | none => return none
    | some op =>
      let _ ← take
      let right ← operand
      return some (op, right, (← spanFrom default).stop)
  return more.foldl (fun left (op, right, stop) =>
    .mk ⟨left.start, stop⟩ .load (.binary op left right)) first

def multiplicative : Parse Node := chain TokenKind.multiplicative? (factor inner)

def additive : Parse Node := chain TokenKind.additive? (multiplicative inner)

def shift : Parse Node := chain TokenKind.shift? (additive inner)

def bitwiseAnd : Parse Node := chain TokenKind.bitAnd? (shift inner)

def bitwiseXor : Parse Node := chain TokenKind.bitXor? (bitwiseAnd inner)

def bitwiseOr : Parse Node := chain TokenKind.bitOr? (bitwiseXor inner)

/-- The comparison operator at the current token, if there is one; it is taken. -/
def comparisonOp : Parse (Option CompareOp) := do
  let kind ← kind
  match kind.comparison? with
  | some .is =>
    let _ ← take
    return some (if ← accept .kwNot then .isNot else .is)
  | some op =>
    let _ ← take
    return some op
  | none =>
    if kind == .kwNot && (← nextKind) == .kwIn then
      let _ ← take
      let _ ← take
      return some .notIn
    else return none

/-- A chain of comparisons is one expression. -/
def comparison : Parse Node := do
  let left ← bitwiseOr inner
  let rest ← many do
    match ← comparisonOp with
    | none => return none
    | some op => return some ⟨op, ← inner .bitwiseOr⟩
  if rest.isEmpty then return left else node left.start (.compare left rest)

def notTest : Parse Node := do
  let start ← start
  if ← accept .kwNot then
    let operand ← inner .notTest
    node start (.unary .not operand)
  else comparison inner

/-- Operands joined by one Boolean operator are one expression. -/
def boolean (op : BoolOp) (word : TokenKind) (operand : Parse Node) : Parse Node := do
  let first ← operand
  let more ← many (behind word operand)
  if more.isEmpty then return first else node first.start (.boolean op (first :: more))

def andTest : Parse Node := boolean .and .kwAnd (notTest inner)

def orTest : Parse Node := boolean .or .kwOr (andTest inner)

/-- A lambda, which is the current token. -/
def lambda : Parse Node := do
  let word ← take
  let params ← params inner .colon false
  let _ ← expect .colon .colon
  let body ← inner .test
  node word.start (.lambda params body)

/-- A lambda, a conditional expression or what stands below them. -/
def test : Parse Node := do
  if (← kind) == .kwLambda then lambda inner
  else
    let body ← orTest inner
    if ← accept .kwIf then
      let condition ← inner .orTest
      let _ ← expect .kwElse .conditionalElse
      let orElse ← inner .test
      node body.start (.conditional body condition orElse)
    else return body

/-- The rule of a level. -/
def rule : Level → Parse Node
  | .test => test inner
  | .orTest => orTest inner
  | .notTest => notTest inner
  | .bitwiseOr => bitwiseOr inner
  | .factor => factor inner

/-- The rules, closed to the given depth of nesting. -/
def expressionWithin : Nat → Level → Parse Node
  | 0, _ => reject .nestingTooDeep
  | depth + 1, level => rule (expressionWithin depth) level

/-- An expression of the given level. No nesting is deeper than the number of tokens. -/
def expression (level : Level) : Parse Node := fun c => expressionWithin (c.ahead + 1) level c

end Grammar

end NameInference
