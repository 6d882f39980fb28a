import NameInference.Inference.Hints

/-!
# Executing functions and classes

Calling a class makes an instance; calling a function evaluates its `return` statements, unless a
hint says what it returns. Faults of calls are recorded, but not for what a descriptor declares.
-/

namespace NameInference

namespace Place

/-- Whether the place opens a body of its own: a `def`, a class or a lambda. -/
def opensBody (p : Place) : Bool := p.isFunction || p.isClass || p.isLambda

/-- The places below that belong to the same body, each before its children. -/
def ownPlaces (p : Place) : List Place :=
  p.children.attach.flatMap fun ⟨c, _⟩ => if c.opensBody then [] else c :: ownPlaces c
termination_by sizeOf p.node
decreasing_by exact sizeOf_lt_of_mem_children ‹_›

/-- The statements of a function, and all that belongs to its body below them. -/
def bodyPlaces (fn : Place) : List Place :=
  match fn.form with
  | .functionDef _ _ _ _ _ _ body =>
    body.flatMap fun stmt => if stmt.opensBody then [] else stmt :: stmt.ownPlaces
  | _ => []

/-- The `return` statements of a function in source order. -/
def returnStatements (fn : Place) : List Place :=
  fn.bodyPlaces.filter fun p =>
    match p.node.form with
    | .returnStmt _ => true
    | _ => false

/-- Whether a function is a generator. -/
def isGenerator (fn : Place) : Bool :=
  fn.bodyPlaces.any fun p =>
    match p.node.form with
    | .yield .. => true
    | _ => false

end Place

namespace Infer

/-- The class that `super` starts from and the receiver it is for, within a method. -/
def enclosingMethod? (context : ValueId) :
    Infer (Option (ValueId × Option ValueId)) := inspect fun s =>
  (s.values.contexts context).findSome? fun id => do
    let (function, arguments) ← s.values.execution? id
    let (node, _, owner) ← s.values.function? function
    let owner ← owner
    if node.isLambda then none else some (owner, (s.argumentList arguments).receiver)

/-- The first class behind those with the given definition. -/
def classBehind (values : Values) (node : Option Place) : List ValueId → Option ValueId
  | cls :: next :: rest =>
    if node.any fun node => (values.classNode? cls).any node.same then some next
    else classBehind values node (next :: rest)
  | _ => none

/-- The value of `super()` in a method or of `super(C, x)`: an instance of the class behind `C` in
the order of the class of `x`. -/
def superInstance (context : ValueId) (args : List Place) : Infer ValueSet := do
  let start : Option (ValueId × Option ValueId) ← match args with
    | [cls, receiver] => do
      let classes ← eval context cls
      let owner ← query fun values => classes.ids.find? values.isClass
      let receivers ← eval context receiver
      pure (owner.map (·, receivers.first?))
    | [] => enclosingMethod? context
    | _ => pure none
  match start with
  | none => return ∅
  | some (owner, receiver) =>
    let lookup ← query fun values => match receiver with
      | none => owner
      | some id =>
        match values.get? id with
        | some (.inst cls ..) => cls
        | _ => if values.isClass id then id else owner
    let order ← order lookup
    match ← query fun values => classBehind values (values.classNode? owner) order with
    | none => return ∅
    | some cls => return .single (← makeInstance cls)

/-- The text of the first argument, if it is a string. -/
def firstString (args : List Place) : Text :=
  match args.head?.map fun arg => arg.node.form with
  | some (Form.string value _) => value
  | _ => []

/-- The value of calling one of the classes that are special: `TypeVar`, `super` and `type` with one
argument. -/
def specialInstance? (cls : ValueId) (list : ArgumentList Place) : Infer (Option ValueSet) := do
  match list.call with
  | none => return none
  | some call =>
    let name ← query (·.fullName? cls)
    let is (text : String) : Bool := name == some (Text.ofString text)
    match call.form with
    | .call _ args keywords =>
      if is "typing.TypeVar" then
        return some (.single (← makeWrapper .typeVar cls none (firstString args) (some call)))
      else if is "builtins.super" then return some (← superInstance list.context args)
      else if is "builtins.type" && keywords.isEmpty then
        match args with
        | [arg] => return some (← collect (← eval list.context arg).ids classOf)
        | _ => return none
      else return none
    | _ => return none

/-- Records the faults of the call of an initialiser. -/
def recordInit (cls receiver : ValueId) (list : ArgumentList Place) : Infer Unit := do
  let inits ← namesInFirst (← layersOf cls) "__init__"
  for init in inits do
    match init.binding? with
    | some b =>
      let inStub ← query fun values => init.parent?.any values.isStub
      if b.kind == .functionDef && !inStub then
        recordIssues b.definition { list with receiver := some receiver }
    | none => pure ()

/-- The value of calling a class. -/
def instantiate (cls : ValueId) (arguments : ArgumentsId) : Infer ValueSet := do
  let list ← argumentList arguments
  match ← specialInstance? cls list with
  | some values => return values
  | none =>
    let receiver ← makeInstance cls arguments
    if list.call.isSome && !(← query (·.isStub cls)) then recordInit cls receiver list
    return .single receiver

/-- Computes the result of calling a value. -/
def computeExecute (callee : ValueId) (arguments : ArgumentsId) : Infer ValueSet := do
  match ← query (·.get? callee) with
  | some (.cls ..) | some (.generic ..) => instantiate callee arguments
  | some (.function node ..) =>
    if !(← query (·.isStub callee)) then recordIssues node (← argumentList arguments)
    run (← makeExecution callee arguments)
  | some (.wrapper kind wrapped extra _ _) =>
    match kind with
    | .boundMethod =>
      let list ← argumentList arguments
      execute wrapped (← internArguments { list with receiver := extra })
    | .staticMethod | .classMethod => execute wrapped arguments
    | .property | .typeVar => return ∅
  | some (.inst ..) => executeAll (← attrOf callee "__call__") arguments
  | _ => return ∅

/-- The values of `return` statements up to the first that is certain to be reached. -/
def returnValues (execution : ValueId) (fn : Place) : List Place → Infer ValueSet
  | [] => return ∅
  | stmt :: rest => do
    match ← stmt.reachability (check execution) (some fn) none with
    | .unreachable =>
      debug fun _ => "return unreachable at line " ++ Text.ofNat stmt.start.line
      returnValues execution fn rest
    | verdict =>
      let values ← match stmt.form with
        | .returnStmt (some value) => eval execution value
        | _ => noneValue
      if verdict == .reachable then return values
      return values.join (← returnValues execution fn rest)

/-- The result of a function body. -/
def bodyValue (execution : ValueId) (frame : Frame) : Infer ValueSet := do
  match frame.node.form with
  | .lambda _ body => eval execution body
  | .functionDef _ _ _ _ _ returns _ =>
    let promised ← match returns with
      | some hint => do executeHint frame.defining hint (← executionTypeVars execution)
      | none => pure ∅
    if !promised.isEmpty then return promised
    if (← query (·.isStub execution)) || frame.node.isGenerator then return ∅
    match frame.node.returnStatements with
    | [] => noneValue
    | stmts => returnValues execution frame.node stmts
  | _ => return ∅

/-- Enters an execution during a step; gives nothing if it has to be skipped. -/
def guarded (function : ValueId) (node : Place) (step : Infer ValueSet) : Infer ValueSet := do
  let exempt ← query fun values => values.isBuiltins (values.root function)
  let stopped ← modifyGet fun s =>
    let guard := s.guard
    let (stopped, guard) := guard.push s.settings.limits node.key exempt
    (stopped, { s with guard })
  try
    if stopped then
      warn fun s => "execution limit reached: " ++ s.values.name function
      return ∅
    else step
  finally modify fun s => { s with guard := s.guard.pop }

/-- Computes the result of an execution. -/
def computeExecution (execution : ValueId) : Infer ValueSet := do
  match ← frame? execution, ← query (·.execution? execution) with
  | some frame, some (function, _) =>
    guarded function frame.node do
      debug fun s => "execute " ++ s.values.describe execution
      indented (bodyValue execution frame)
  | _, _ => return ∅

end Infer

end NameInference
