import NameInference.Token

/-!
# Forms of syntax

A form says what a node is: a statement, an expression or a part of one, with the parts `ν` it is
made of. They stand in source order, but for keywords, which stand behind all other arguments of
their call or class; `parts` lists them in that order. Because the type of the parts is a parameter,
one vocabulary serves both for trees and for places in trees.
-/

namespace NameInference

/-- Whether an expression is read, bound or deleted. -/
inductive Usage where
  | load | store | del
  deriving DecidableEq, Repr, Inhabited

inductive UnaryOp where
  | not | neg | pos | invert
  deriving DecidableEq, Repr, Inhabited

inductive BinaryOp where
  | add | sub | mul | matMul | div | floorDiv | mod | pow
  | lshift | rshift | bitAnd | bitOr | bitXor
  deriving DecidableEq, Repr, Inhabited

inductive BoolOp where
  | and | or
  deriving DecidableEq, Repr, Inhabited

inductive CompareOp where
  | eq | notEq | lt | le | gt | ge | is | isNot | in | notIn
  deriving DecidableEq, Repr, Inhabited

/-- What a comprehension builds. -/
inductive ComprehensionKind where
  | list | set | dict | generator
  deriving DecidableEq, Repr, Inhabited

/-- How a parameter takes arguments. -/
inductive ParamKind where
  | positionalOnly | positionalOrKeyword | varPositional | keywordOnly | varKeyword
  deriving DecidableEq, Repr, Inhabited

/-- A `name=value` argument; the name of a `**mapping` is empty. -/
structure Keyword (ν : Type) where
  name : Text
  position : Position
  value : ν

/-- An entry of a dictionary display; a `**mapping` has no key. -/
structure Entry (ν : Type) where
  key : Option ν
  value : ν

/-- A further operand of a comparison chain with the operator before it. -/
structure Comparison (ν : Type) where
  op : CompareOp
  operand : ν

/-- One `for` of a comprehension with its conditions. -/
structure Clause (ν : Type) where
  isAsync : Bool
  target : ν
  iterable : ν
  conditions : List ν

/-- What a node is, over the type of its parts. The `colon` of a definition is where its header
ends. -/
inductive Form (ν : Type) where
  | module (body : List ν)
  | functionDef (isAsync : Bool) (colon : Position) (decorators : List ν) (name : ν)
      (params : List ν) (returns : Option ν) (body : List ν)
  | classDef (colon : Position) (decorators : List ν) (name : ν) (bases : List ν)
      (keywords : List (Keyword ν)) (body : List ν)
  | param (kind : ParamKind) (name : ν) (hint default : Option ν)
  | returnStmt (value : Option ν)
  | assign (targets : List ν) (hint value : Option ν)
  | augAssign (op : BinaryOp) (target value : ν)
  | exprStmt (value : ν)
  | ifStmt (isElif : Bool) (test : ν) (body orElse : List ν)
  | whileStmt (test : ν) (body orElse : List ν)
  | forStmt (isAsync : Bool) (target iterable : ν) (body orElse : List ν)
  | tryStmt (body handlers orElse final : List ν)
  | handler (type target : Option ν) (body : List ν)
  | withStmt (isAsync : Bool) (items body : List ν)
  | withItem (manager : ν) (target : Option ν)
  | pass
  | breakStmt
  | continueStmt
  | raise (exception cause : Option ν)
  | del (targets : List ν)
  | assert (test : ν) (message : Option ν)
  | importStmt (names : List ν)
  | importFrom (module : List Text) (level : Nat) (star : Bool) (names : List ν)
  | importItem (path : List Text) (hasAs : Bool) (binding : ν)
  | globalStmt (names : List ν)
  | nonlocalStmt (names : List ν)
  | name (id : Text)
  | attr (value : ν) (name : Text) (nameAt : Position)
  | subscript (value index : ν)
  | slice (lower upper step : Option ν)
  | starred (value : ν)
  | call (callee : ν) (args : List ν) (keywords : List (Keyword ν))
  | int (text : Text)
  | float (text : Text)
  | imag (text : Text)
  | string (value : Text) (formatted : Bool)
  | bytes (value : Text)
  | bool (value : Bool)
  | noneLit
  | ellipsis
  | list (elements : List ν)
  | tuple (elements : List ν)
  | set (elements : List ν)
  | dict (entries : List (Entry ν))
  | comprehension (kind : ComprehensionKind) (element : ν) (value : Option ν)
      (clauses : List (Clause ν))
  | unary (op : UnaryOp) (operand : ν)
  | binary (op : BinaryOp) (left right : ν)
  | boolean (op : BoolOp) (operands : List ν)
  | compare (left : ν) (rest : List (Comparison ν))
  | conditional (body test orElse : ν)
  | lambda (params : List ν) (body : ν)
  | await (value : ν)
  | yield (isFrom : Bool) (value : Option ν)
  | named (target value : ν)

/-- The name of a use as it is shown; reading is not shown. -/
def Usage.label? : Usage → Option String
  | .load => none
  | .store => some "Store"
  | .del => some "Del"

def UnaryOp.label : UnaryOp → String
  | .not => "Not" | .neg => "Neg" | .pos => "Pos" | .invert => "Invert"

def BinaryOp.label : BinaryOp → String
  | .add => "Add" | .sub => "Sub" | .mul => "Mul" | .matMul => "MatMul" | .div => "Div"
  | .floorDiv => "FloorDiv" | .mod => "Mod" | .pow => "Pow" | .lshift => "LShift"
  | .rshift => "RShift" | .bitAnd => "BitAnd" | .bitOr => "BitOr" | .bitXor => "BitXor"

def BoolOp.label : BoolOp → String
  | .and => "And" | .or => "Or"

def CompareOp.label : CompareOp → String
  | .eq => "Eq" | .notEq => "NotEq" | .lt => "Lt" | .le => "Le" | .gt => "Gt" | .ge => "Ge"
  | .is => "Is" | .isNot => "IsNot" | .in => "In" | .notIn => "NotIn"

def ComprehensionKind.label : ComprehensionKind → String
  | .list => "List" | .set => "Set" | .dict => "Dict" | .generator => "Generator"

def ParamKind.label : ParamKind → String
  | .positionalOnly => "PositionalOnly" | .positionalOrKeyword => "PositionalOrKeyword"
  | .varPositional => "VarPositional" | .keywordOnly => "KeywordOnly" | .varKeyword => "VarKeyword"

/-- Parameters that collect arguments: `*args` and `**kwargs`. -/
def ParamKind.isVariadic : ParamKind → Bool
  | .varPositional | .varKeyword => true
  | _ => false

namespace Entry

/-- The key, if there is one, and the value. -/
def parts {ν : Type} (e : Entry ν) : List ν := e.key.toList ++ [e.value]

end Entry

namespace Clause

/-- The target, the iterable and the conditions. -/
def parts {ν : Type} (c : Clause ν) : List ν := c.target :: c.iterable :: c.conditions

end Clause

namespace Form

variable {ν : Type}

/-- The parts of a form in source order, with the values of keywords behind the other arguments. -/
def parts : Form ν → List ν
  | module body => body
  | functionDef _ _ decorators ident params returns body =>
    decorators ++ ident :: params ++ returns.toList ++ body
  | classDef _ decorators ident bases keywords body =>
    decorators ++ ident :: bases ++ keywords.map (·.value) ++ body
  | param _ ident hint default => ident :: (hint.toList ++ default.toList)
  | returnStmt value => value.toList
  | assign targets hint value => targets ++ hint.toList ++ value.toList
  | augAssign _ target value => [target, value]
  | exprStmt value => [value]
  | ifStmt _ test body orElse => test :: body ++ orElse
  | whileStmt test body orElse => test :: body ++ orElse
  | forStmt _ target iterable body orElse => target :: iterable :: body ++ orElse
  | tryStmt body handlers orElse final => body ++ handlers ++ orElse ++ final
  | handler type target body => type.toList ++ target.toList ++ body
  | withStmt _ items body => items ++ body
  | withItem manager target => manager :: target.toList
  | pass | breakStmt | continueStmt => []
  | raise exception cause => exception.toList ++ cause.toList
  | del targets => targets
  | assert test message => test :: message.toList
  | importStmt names => names
  | importFrom _ _ _ names => names
  | importItem _ _ binding => [binding]
  | globalStmt names => names
  | nonlocalStmt names => names
  | name _ => []
  | attr value _ _ => [value]
  | subscript value index => [value, index]
  | slice lower upper step => lower.toList ++ upper.toList ++ step.toList
  | starred value => [value]
  | call callee args keywords => callee :: args ++ keywords.map (·.value)
  | int _ | float _ | imag _ | string _ _ | bytes _ | bool _ | noneLit | ellipsis => []
  | list elements => elements
  | tuple elements => elements
  | set elements => elements
  | dict entries => entries.flatMap Entry.parts
  | comprehension _ element value clauses => element :: value.toList ++ clauses.flatMap Clause.parts
  | unary _ operand => [operand]
  | binary _ left right => [left, right]
  | boolean _ operands => operands
  | compare left rest => left :: rest.map (·.operand)
  | conditional body test orElse => [body, test, orElse]
  | lambda params body => params ++ [body]
  | await value => [value]
  | yield _ value => value.toList
  | named target value => [target, value]

section Numbering

variable {μ : Type} (f : Nat → ν → μ)

/-- Numbers the parts of a list from `k` on. -/
def numberList (k : Nat) (xs : List ν) : List μ := xs.mapIdx fun i x => f (k + i) x

/-- Gives an optional part the number `k`. -/
def numberOption (k : Nat) (x : Option ν) : Option μ := x.map (f k)

/-- Numbers the values of keywords from `k` on. -/
def numberKeywords (k : Nat) (xs : List (Keyword ν)) : List (Keyword μ) :=
  xs.mapIdx fun i x => ⟨x.name, x.position, f (k + i) x.value⟩

/-- Numbers the operands of comparisons from `k` on. -/
def numberComparisons (k : Nat) (xs : List (Comparison ν)) : List (Comparison μ) :=
  xs.mapIdx fun i x => ⟨x.op, f (k + i) x.operand⟩

/-- Numbers the keys and values of a dictionary from `k` on. -/
def numberEntries (k : Nat) : List (Entry ν) → List (Entry μ)
  | [] => []
  | e :: rest =>
    ⟨numberOption f k e.key, f (k + e.key.toList.length) e.value⟩ ::
      numberEntries (k + e.parts.length) rest

/-- Numbers the parts of clauses from `k` on. -/
def numberClauses (k : Nat) : List (Clause ν) → List (Clause μ)
  | [] => []
  | c :: rest =>
    ⟨c.isAsync, f k c.target, f (k + 1) c.iterable, numberList f (k + 2) c.conditions⟩ ::
      numberClauses (k + c.parts.length) rest

/-- Replaces every part by what `f` makes of it and of its number among the parts, counted from
zero. -/
def number : Form ν → Form μ
  | module body => module (numberList f 0 body)
  | functionDef isAsync colon decorators ident params returns body =>
    let k := decorators.length
    let l := k + 1 + params.length
    functionDef isAsync colon (numberList f 0 decorators) (f k ident) (numberList f (k + 1) params)
      (numberOption f l returns) (numberList f (l + returns.toList.length) body)
  | classDef colon decorators ident bases keywords body =>
    let k := decorators.length
    let l := k + 1 + bases.length
    classDef colon (numberList f 0 decorators) (f k ident) (numberList f (k + 1) bases)
      (numberKeywords f l keywords) (numberList f (l + keywords.length) body)
  | param kind ident hint default =>
    param kind (f 0 ident) (numberOption f 1 hint) (numberOption f (1 + hint.toList.length) default)
  | returnStmt value => returnStmt (numberOption f 0 value)
  | assign targets hint value =>
    let k := targets.length
    assign (numberList f 0 targets) (numberOption f k hint)
      (numberOption f (k + hint.toList.length) value)
  | augAssign op target value => augAssign op (f 0 target) (f 1 value)
  | exprStmt value => exprStmt (f 0 value)
  | ifStmt isElif test body orElse =>
    ifStmt isElif (f 0 test) (numberList f 1 body) (numberList f (1 + body.length) orElse)
  | whileStmt test body orElse =>
    whileStmt (f 0 test) (numberList f 1 body) (numberList f (1 + body.length) orElse)
  | forStmt isAsync target iterable body orElse =>
    forStmt isAsync (f 0 target) (f 1 iterable) (numberList f 2 body)
      (numberList f (2 + body.length) orElse)
  | tryStmt body handlers orElse final =>
    let k := body.length
    let l := k + handlers.length
    tryStmt (numberList f 0 body) (numberList f k handlers) (numberList f l orElse)
      (numberList f (l + orElse.length) final)
  | handler type target body =>
    let k := type.toList.length
    handler (numberOption f 0 type) (numberOption f k target)
      (numberList f (k + target.toList.length) body)
  | withStmt isAsync items body =>
    withStmt isAsync (numberList f 0 items) (numberList f items.length body)
  | withItem manager target => withItem (f 0 manager) (numberOption f 1 target)
  | pass => pass
  | breakStmt => breakStmt
  | continueStmt => continueStmt
  | raise exception cause =>
    raise (numberOption f 0 exception) (numberOption f exception.toList.length cause)
  | del targets => del (numberList f 0 targets)
  | assert test message => assert (f 0 test) (numberOption f 1 message)
  | importStmt names => importStmt (numberList f 0 names)
  | importFrom path level star names => importFrom path level star (numberList f 0 names)
  | importItem path hasAs binding => importItem path hasAs (f 0 binding)
  | globalStmt names => globalStmt (numberList f 0 names)
  | nonlocalStmt names => nonlocalStmt (numberList f 0 names)
  | name id => name id
  | attr value ident identAt => attr (f 0 value) ident identAt
  | subscript value index => subscript (f 0 value) (f 1 index)
  | slice lower upper step =>
    let k := lower.toList.length
    slice (numberOption f 0 lower) (numberOption f k upper)
      (numberOption f (k + upper.toList.length) step)
  | starred value => starred (f 0 value)
  | call callee args keywords =>
    call (f 0 callee) (numberList f 1 args) (numberKeywords f (1 + args.length) keywords)
  | int text => int text
  | float text => float text
  | imag text => imag text
  | string value formatted => string value formatted
  | bytes value => bytes value
  | bool value => bool value
  | noneLit => noneLit
  | ellipsis => ellipsis
  | list elements => list (numberList f 0 elements)
  | tuple elements => tuple (numberList f 0 elements)
  | set elements => set (numberList f 0 elements)
  | dict entries => dict (numberEntries f 0 entries)
  | comprehension kind element value clauses =>
    comprehension kind (f 0 element) (numberOption f 1 value)
      (numberClauses f (1 + value.toList.length) clauses)
  | unary op operand => unary op (f 0 operand)
  | binary op left right => binary op (f 0 left) (f 1 right)
  | boolean op operands => boolean op (numberList f 0 operands)
  | compare left rest => compare (f 0 left) (numberComparisons f 1 rest)
  | conditional body test orElse => conditional (f 0 body) (f 1 test) (f 2 orElse)
  | lambda params body => lambda (numberList f 0 params) (f params.length body)
  | await value => await (f 0 value)
  | yield isFrom value => yield isFrom (numberOption f 0 value)
  | named target value => named (f 0 target) (f 1 value)

end Numbering

/-- The name under which a form is shown. -/
def label : Form ν → String
  | module _ => "Module"
  | functionDef .. => "FunctionDef"
  | classDef .. => "ClassDef"
  | param .. => "Param"
  | returnStmt _ => "ReturnStmt"
  | assign .. => "AssignStmt"
  | augAssign .. => "AugAssignStmt"
  | exprStmt _ => "ExprStmt"
  | ifStmt .. => "IfStmt"
  | whileStmt .. => "WhileStmt"
  | forStmt .. => "ForStmt"
  | tryStmt .. => "TryStmt"
  | handler .. => "ExceptHandler"
  | withStmt .. => "WithStmt"
  | withItem .. => "WithItem"
  | pass => "PassStmt"
  | breakStmt => "BreakStmt"
  | continueStmt => "ContinueStmt"
  | raise .. => "RaiseStmt"
  | del _ => "DelStmt"
  | assert .. => "AssertStmt"
  | importStmt _ => "Import"
  | importFrom .. => "ImportFrom"
  | importItem .. => "Alias"
  | globalStmt _ => "GlobalStmt"
  | nonlocalStmt _ => "NonlocalStmt"
  | name _ => "Name"
  | attr .. => "Attribute"
  | subscript .. => "Subscript"
  | slice .. => "Slice"
  | starred _ => "Starred"
  | call .. => "Call"
  | int _ => "IntLiteral"
  | float _ => "FloatLiteral"
  | imag _ => "ImagLiteral"
  | string .. => "StringLiteral"
  | bytes _ => "BytesLiteral"
  | bool _ => "BoolLiteral"
  | noneLit => "NoneLiteral"
  | ellipsis => "EllipsisLiteral"
  | list _ => "ListLiteral"
  | tuple _ => "TupleLiteral"
  | set _ => "SetLiteral"
  | dict _ => "DictLiteral"
  | comprehension .. => "Comprehension"
  | unary .. => "UnaryExpr"
  | binary .. => "BinaryExpr"
  | boolean .. => "BoolOpExpr"
  | compare .. => "Compare"
  | conditional .. => "IfExpr"
  | lambda .. => "LambdaExpr"
  | await _ => "AwaitExpr"
  | yield .. => "YieldExpr"
  | named .. => "NamedExpr"

/-- Statements, parameters, handlers, managers, imported items and modules are no expressions. -/
def isExpression : Form ν → Bool
  | name _ | attr .. | subscript .. | slice .. | starred _ | call .. | int _ | float _ | imag _
  | string .. | bytes _ | bool _ | noneLit | ellipsis | list _ | tuple _ | set _ | dict _
  | comprehension .. | unary .. | binary .. | boolean .. | compare .. | conditional .. | lambda ..
  | await _ | yield .. | named .. => true
  | _ => false

/-- Forms that hold names of their own. -/
def isScope : Form ν → Bool
  | module _ | functionDef .. | classDef .. | lambda .. | comprehension .. => true
  | _ => false

/-- Statements that decide which of their blocks run. -/
def isFlow : Form ν → Bool
  | ifStmt .. | whileStmt .. | forStmt .. | tryStmt .. | withStmt .. => true
  | _ => false

end Form

end NameInference
