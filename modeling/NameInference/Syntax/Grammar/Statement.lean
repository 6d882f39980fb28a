import NameInference.Syntax.Grammar.Expression
import NameInference.Token.Layout

/-!
# The grammar of statements

A line holds simple statements between semicolons or opens a compound statement, whose blocks are
read by the rule for statements with less depth. A module is a sequence of statements up to the end
token.
-/

namespace NameInference

namespace Grammar

open Parse

/-- A statement, or a part of one, from `start` to the last token taken. -/
def stmt (start : Position) (form : Form Node) : Parse Node := do
  return .mk (← spanFrom start) .load form

/-- `name := value` or an expression. -/
def namedTest : Parse Node := namedOr expression (expression .test)

/-- Expressions between commas. -/
def tests : Parse Node := testList expression (expression .test)

/-- `yield` or expressions between commas. -/
def yieldOrTests : Parse Node := yieldOr expression tests

/-- An identifier that a statement binds. -/
def bound (what : Expectation) : Parse Node := do
  return (← expect .ident what).toName .store

/-- `raise`, `raise exception` or `raise exception from cause`. -/
def raiseStmt : Parse Node := do
  let word ← take
  if (← kind).startsExpression then
    let exception ← expression .test
    let cause ← behind .kwFrom (expression .test)
    stmt word.start (.raise (some exception) cause)
  else stmt word.start (.raise none none)

/-- The names that a `global` or `nonlocal` statement declares. -/
def declaredNames : Parse (List Node) := oneOrMore do
  return (← expect .ident .identifier).toName .load

/-- `del` with at least one target. -/
def delStmt : Parse Node := do
  let word ← take
  let targets ← betweenCommas TokenKind.startsExpression do
    return (← expression .bitwiseOr).withUsage .del
  if targets.isEmpty then reject .delWithoutTarget
  stmt word.start (.del targets)

/-- The names behind the dots of a dotted path. -/
def dottedTail : Parse (List Text) := many do
  behind .dot do return (← expect .ident .moduleName).text

/-- What an imported item binds: its alias, or else the identifier of `first`. -/
def importedItem (first : Token) (path : List Text) : Parse Node := do
  match ← behind .kwAs (bound .identifier) with
  | some binding => stmt first.start (.importItem path true binding)
  | none => stmt first.start (.importItem path false (first.toName .store))

/-- An item of an `import` statement. -/
def dottedAlias : Parse Node := do
  let first ← expect .ident .moduleName
  let more ← dottedTail
  importedItem first (first.text :: more)

/-- `import` with its items. -/
def importStmt : Parse Node := do
  let word ← take
  let names ← oneOrMore dottedAlias
  stmt word.start (.importStmt names)

/-- The dots before the module of a relative import; three dots may be one token. -/
def importLevel : Parse Nat := do
  let dots ← many do
    let kind ← kind
    if kind == .dot then
      let _ ← take
      return some 1
    else if kind == .ellipsis then
      let _ ← take
      return some 3
    else return none
  return dots.foldl (· + ·) 0

/-- The items of a `from` import, in parentheses or not. -/
def importedNames : Parse (List Node) := do
  let parenthesized ← accept .lparen
  let names ← betweenCommas (fun kind => !(parenthesized && kind == .rparen)) do
    let name ← expect .ident .importedName
    importedItem name [name.text]
  if parenthesized then
    let _ ← expect .rparen .closeParen
  if names.isEmpty then reject (.expected .importedName)
  return names

/-- `from` with its module and its items. -/
def importFrom : Parse Node := do
  let word ← take
  let level ← importLevel
  let module ← if (← kind) == .ident then do
      let first ← take
      pure (first.text :: (← dottedTail))
    else pure []
  if level == 0 && module.isEmpty then reject (.expected .moduleName)
  let _ ← expect .kwImport .keywordImport
  if ← accept .star then stmt word.start (.importFrom module level true [])
  else
    let names ← importedNames
    stmt word.start (.importFrom module level false names)

/-- The targets and the value of a chain of assignments, which has at least one expression. -/
def splitChain : Node → List Node → List Node × Node
  | first, [] => ([], first)
  | first, next :: rest =>
    let (targets, value) := splitChain next rest
    (first.withUsage .store :: targets, value)

/-- An expression, or an assignment of one of the three kinds. -/
def expressionStmt : Parse Node := do
  let first ← token
  if !first.kind.startsExpression && first.kind != .kwYield then reject .invalidSyntax
  let left ← yieldOrTests
  if ← accept .colon then
    let hint ← expression .test
    let value ← behind .equal yieldOrTests
    stmt first.start (.assign [left.withUsage .store] (some hint) value)
  else if let some op := (← kind).augmented? then
    let _ ← take
    let value ← yieldOrTests
    stmt first.start (.augAssign op (left.withUsage .store) value)
  else
    let more ← many (behind .equal yieldOrTests)
    if more.isEmpty then stmt first.start (.exprStmt left)
    else
      let (targets, value) := splitChain left more
      stmt first.start (.assign targets none (some value))

/-- A statement of one keyword. -/
def wordStmt (form : Form Node) : Parse Node := do
  let word ← take
  stmt word.start form

/-- A statement that opens no block. -/
def smallStatement : Parse Node := do
  match ← kind with
  | .kwPass => wordStmt .pass
  | .kwBreak => wordStmt .breakStmt
  | .kwContinue => wordStmt .continueStmt
  | .kwReturn =>
    let word ← take
    let value ← if (← kind).startsExpression then some <$> tests else pure none
    stmt word.start (.returnStmt value)
  | .kwRaise => raiseStmt
  | .kwGlobal =>
    let word ← take
    let names ← declaredNames
    stmt word.start (.globalStmt names)
  | .kwNonlocal =>
    let word ← take
    let names ← declaredNames
    stmt word.start (.nonlocalStmt names)
  | .kwDel => delStmt
  | .kwAssert =>
    let word ← take
    let test ← expression .test
    let message ← behind .comma (expression .test)
    stmt word.start (.assert test message)
  | .kwImport => importStmt
  | .kwFrom => importFrom
  | _ => expressionStmt

/-- Simple statements between semicolons, up to the end of the line. -/
def simpleStatements : Parse (List Node) := do
  let first ← smallStatement
  let more ← many do
    if !(← accept .semicolon) then return none
    let kind ← kind
    if kind == .newline || kind == .done then return none
    return some (← smallStatement)
  if (← kind) != .done then
    let _ ← expect .newline .endOfLine
  return first :: more

variable (statement : Parse (List Node))

/-- A block behind a colon: simple statements on the same line, or indented statements. -/
def suite : Parse (List Node) := do
  if !(← accept .newline) then simpleStatements
  else
    let _ ← expect .indent .indentedBlock
    let parts ← many do
      if ← accept .dedent then return none
      if (← kind) == .done then return none
      if ← accept .newline then return some []
      return some (← statement)
    return parts.flatten

/-- A colon and a block. -/
def block : Parse (List Node) := do
  let _ ← expect .colon .colon
  suite statement

/-- The block behind an optional keyword. -/
def optionalBlock (word : TokenKind) : Parse (List Node) := do
  if ← accept word then block statement else return []

/-- A function behind its decorators. -/
def functionDef (decorators : List Node) : Parse Node := do
  let start ← start
  let isAsync ← accept .kwAsync
  let _ ← expect .kwDef .keywordDef
  let name ← bound .functionName
  let _ ← expect .lparen .openParen
  let params ← params expression .rparen true
  let _ ← expect .rparen .closeParen
  let returns ← behind .arrow (expression .test)
  let colon ← expect .colon .colon
  let body ← suite statement
  stmt start (.functionDef isAsync colon.start decorators name params returns body)

/-- A class behind its decorators. -/
def classDef (decorators : List Node) : Parse Node := do
  let start ← start
  let _ ← expect .kwClass .keywordClass
  let name ← bound .className
  let (bases, keywords) ← if ← accept .lparen then do
      let args ← arguments expression
      let _ ← expect .rparen .closeParen
      pure args
    else pure ([], [])
  let colon ← expect .colon .colon
  let body ← suite statement
  stmt start (.classDef colon.start decorators name bases keywords body)

/-- Decorators, each on a line of its own, and the definition that they decorate. -/
def decorated : Parse Node := do
  let decorators ← many do
    if !(← accept .atSign) then return none
    let decorator ← namedTest
    let _ ← expect .newline .decoratorEnd
    return some decorator
  let kind ← kind
  if kind == .kwDef || (kind == .kwAsync && (← nextKind) == .kwDef) then
    functionDef statement decorators
  else if kind == .kwClass then classDef statement decorators
  else reject .decoratorWithoutDefinition

/-- A condition and its block, behind the position of their keyword. -/
structure Branch where
  start : Position
  test : Node
  body : List Node

/-- The condition and the block of an `if` or `elif`, which is the current token. -/
def branch : Parse Branch := do
  let word ← take
  let test ← namedTest
  let body ← block statement
  return ⟨word.start, test, body⟩

/-- Nests each further branch in the alternative of the one before; all of them end at `stop`. -/
def nestBranches (stop : Position) (orElse : List Node) (isElif : Bool) :
    Branch → List Branch → Node
  | first, [] => .mk ⟨first.start, stop⟩ .load (.ifStmt isElif first.test first.body orElse)
  | first, next :: rest =>
    .mk ⟨first.start, stop⟩ .load
      (.ifStmt isElif first.test first.body [nestBranches stop orElse true next rest])

def ifStmt : Parse Node := do
  let first ← branch statement
  let more ← many do
    if (← kind) == .kwElif then return some (← branch statement) else return none
  let orElse ← optionalBlock statement .kwElse
  let span ← spanFrom first.start
  return nestBranches span.stop orElse false first more

def whileStmt : Parse Node := do
  let first ← branch statement
  let orElse ← optionalBlock statement .kwElse
  stmt first.start (.whileStmt first.test first.body orElse)

def forStmt : Parse Node := do
  let start ← start
  let isAsync ← accept .kwAsync
  let _ ← expect .kwFor .keywordFor
  let target ← targetList expression (expression .bitwiseOr)
  let _ ← expect .kwIn .keywordIn
  let iterable ← tests
  let body ← block statement
  let orElse ← optionalBlock statement .kwElse
  stmt start (.forStmt isAsync target iterable body orElse)

/-- An `except` part, the keyword of which is the current token. -/
def handler : Parse Node := do
  let word ← take
  let (type, target) ←
    if (← kind) == .colon then pure (none, none)
    else do
      let type ← expression .test
      let target ← behind .kwAs (bound .identifier)
      pure (some type, target)
  let body ← block statement
  stmt word.start (.handler type target body)

/-- A `try` statement; it has a handler or a final block, and an alternative only behind handlers.
-/
def tryStmt : Parse Node := do
  let word ← take
  let body ← block statement
  let handlers ← many do
    if (← kind) == .kwExcept then return some (← handler statement) else return none
  let orElse ← if handlers.isEmpty then pure [] else optionalBlock statement .kwElse
  let final ← optionalBlock statement .kwFinally
  if handlers.isEmpty && final.isEmpty then reject .tryWithoutHandler
  stmt word.start (.tryStmt body handlers orElse final)

/-- A manager and what it is bound to. -/
def withItem : Parse Node := do
  let start ← start
  let manager ← expression .test
  let target ← behind .kwAs do return (← expression .bitwiseOr).withUsage .store
  stmt start (.withItem manager target)

def withStmt : Parse Node := do
  let start ← start
  let isAsync ← accept .kwAsync
  let _ ← expect .kwWith .keywordWith
  let items ← oneOrMore withItem
  let body ← block statement
  stmt start (.withStmt isAsync items body)

/-- What stands on a line: one compound statement or simple statements. -/
def statementRule : Parse (List Node) := do
  match ← kind with
  | .indent => reject .unexpectedIndent
  | .atSign => return [← decorated statement]
  | .kwDef => return [← functionDef statement []]
  | .kwClass => return [← classDef statement []]
  | .kwIf => return [← ifStmt statement]
  | .kwWhile => return [← whileStmt statement]
  | .kwFor => return [← forStmt statement]
  | .kwTry => return [← tryStmt statement]
  | .kwWith => return [← withStmt statement]
  | .kwAsync =>
    match ← nextKind with
    | .kwDef => return [← functionDef statement []]
    | .kwFor => return [← forStmt statement]
    | .kwWith => return [← withStmt statement]
    | _ =>
      let _ ← take
      reject .asyncWithoutBlock
  | _ => simpleStatements

/-- The rule for statements, closed to the given depth of nesting. -/
def statementWithin : Nat → Parse (List Node)
  | 0 => reject .nestingTooDeep
  | depth + 1 => statementRule (statementWithin depth)

/-- The statements of a line. No nesting is deeper than the number of tokens. -/
def statementLine : Parse (List Node) := fun c => statementWithin (c.ahead + 1) c

/-- The statements up to the end. -/
def statements : Parse (List Node) := do
  let parts ← many do
    if (← kind) == .done then return none
    if ← accept .newline then return some []
    return some (← statementLine)
  return parts.flatten

end Grammar

namespace Module

/-- The module of a sequence of tokens. It is named for the file of the first token. -/
def ofTokens (tokens : List Token) : Except SyntaxError Module := do
  let first := Cursor.ofTokens tokens
  let (body, last) ← Grammar.statements.run first
  return ⟨first.current.file, .mk ⟨⟨1, 1⟩, last.current.start⟩ .load (.module body), []⟩

/-- The module of a source, which keeps the lines of the source. -/
def ofSource (source : Source) : Except SyntaxError Module := do
  let module ← ofTokens (← Source.stackedTokens [source])
  return { module with file := source.file, lines := source.lines }

end Module

end NameInference
