import NameInference.Scope.Redirection

/-!
# Bindings

Every occurrence of a name that binds it, in the order in which the parts of each statement take
effect: values before targets, decorators and defaults before the name of a definition. A node is
visited with a task that says what to make of it; the plan of a visit lists the entries it adds and
the children it visits.
-/

namespace NameInference

/-- How a name is bound. -/
inductive BindingKind where
  | assignment | annotatedAssignment | augmentedAssignment | forTarget | withTarget | exceptTarget
  | importName | importFrom | functionDef | classDef | param | namedExpr | comprehensionTarget
  deriving DecidableEq, Repr, Inhabited

/-- The name under which a kind of binding is shown. -/
def BindingKind.label : BindingKind → String
  | .assignment => "assignment"
  | .annotatedAssignment => "annotated-assignment"
  | .augmentedAssignment => "augmented-assignment"
  | .forTarget => "for-target"
  | .withTarget => "with-target"
  | .exceptTarget => "except-target"
  | .importName => "import"
  | .importFrom => "import-from"
  | .functionDef => "def"
  | .classDef => "class"
  | .param => "param"
  | .namedExpr => "named-expr"
  | .comprehensionTarget => "comprehension-target"

/-- A name that is bound at a place, by a definition, in a scope. -/
structure Binding where
  name : Place
  id : Text
  definition : Place
  kind : BindingKind
  scope : Place
  deriving Inhabited

/-- An attribute of the first parameter that is bound in a method. -/
structure SelfAttribute where
  target : Place
  definition : Place
  kind : BindingKind
  method : Place
  deriving Inhabited

/-- What the statements of a module add to the index. -/
inductive IndexEntry where
  | binding (b : Binding)
  | selfAttribute (owner : Place) (name : Text) (a : SelfAttribute)
  | starImport (scope stmt : Place)

/-- The method whose statements are visited, its class and the name of its first parameter. -/
structure MethodFrame where
  owner : Place
  method : Place
  selfName : Text

/-- What to make of a visited node. -/
inductive IndexTask where
  | statement
  | expression
  | parameterDefault
  | target (definition : Place) (kind : BindingKind)

/-- A visit: the task, the scope it belongs to and the method around. -/
structure IndexVisit where
  task : IndexTask
  scope : Place
  frame : Option MethodFrame := none

/-- One step of a plan: add an entry or visit the child with a number. -/
inductive IndexStep where
  | add (entry : IndexEntry)
  | visit (child : Nat) (visit : IndexVisit)

namespace Place

/-- The number of the place among the children of its parent. -/
def number (p : Place) : Nat := (p.above.head?.map (·.1)).getD 0

/-- The entry for a name. -/
def bindingEntry (name definition : Place) (kind : BindingKind) (scope : Place) : List IndexStep :=
  match name.id? with
  | some id => [.add (.binding ⟨name, id, definition, kind, scope⟩)]
  | none => []

/-- The entry for the name of a parameter. -/
def paramEntry (scope p : Place) : List IndexStep :=
  match p.form with
  | .param _ name _ _ => bindingEntry name p .param scope
  | _ => []

/-- The entry for an imported item. -/
def itemEntry (kind : BindingKind) (scope p : Place) : List IndexStep :=
  match p.form with
  | .importItem _ _ binding => bindingEntry binding p kind scope
  | _ => []

/-- Visits a child. -/
def visiting (visit : IndexVisit) (child : Place) : List IndexStep := [.visit child.number visit]

/-- The plan of the clauses of a comprehension. The first iterable belongs to the scope around. -/
def planClauses (comprehension : Place) : (outer : Place) → List (Clause Place) → List IndexStep
  | _, [] => []
  | outer, c :: rest =>
    visiting ⟨.expression, outer, none⟩ c.iterable
      ++ visiting ⟨.target comprehension .comprehensionTarget, comprehension, none⟩ c.target
      ++ c.conditions.flatMap (visiting ⟨.expression, comprehension, none⟩)
      ++ planClauses comprehension comprehension rest

/-- The scope itself, or the first one outside that is no comprehension. -/
def beyondComprehensions? (scope : Place) : Option Place :=
  if scope.isComprehension then scope.scopeBeyond? isComprehension else some scope

/-- The plan of an expression. -/
def planExpression (p scope : Place) : List IndexStep :=
  match p.form with
  | .lambda params body =>
    params.flatMap (fun q => visiting ⟨.parameterDefault, scope, none⟩ q ++ paramEntry p q)
      ++ visiting ⟨.expression, p, none⟩ body
  | .comprehension _ element value clauses =>
    planClauses p scope clauses ++ visiting ⟨.expression, p, none⟩ element
      ++ value.toList.flatMap (visiting ⟨.expression, p, none⟩)
  | .named target value =>
    (match scope.beyondComprehensions? with
      | some owner => bindingEntry target p .namedExpr owner
      | none => []) ++ visiting ⟨.expression, scope, none⟩ value
  | form => form.parts.flatMap (visiting ⟨.expression, scope, none⟩)

/-- The entry for an attribute of the first parameter of the method around. -/
def selfEntry (p definition : Place) (kind : BindingKind) (frame : Option MethodFrame)
    (value : Place) (name : Text) :
    List IndexStep :=
  match frame with
  | some frame =>
    if value.id? == some frame.selfName then
      [.add (.selfAttribute frame.owner name ⟨p, definition, kind, frame.method⟩)]
    else []
  | none => []

/-- The plan of a target. -/
def planTarget (p definition : Place) (kind : BindingKind) (scope : Place)
    (frame : Option MethodFrame) :
    List IndexStep :=
  match p.form with
  | .name _ => bindingEntry p definition kind scope
  | .tuple elements | .list elements =>
    elements.flatMap (visiting ⟨.target definition kind, scope, frame⟩)
  | .starred value => visiting ⟨.target definition kind, scope, frame⟩ value
  | .attr value name _ =>
    selfEntry p definition kind frame value name ++ visiting ⟨.expression, scope, none⟩ value
  | _ => planExpression p scope

/-- Whether a function has the given name as a decorator. -/
def hasDecorator (decorators : List Place) (id : Text) : Bool := decorators.any (·.id? == some id)

/-- The frame of a function in a class: it has a first parameter that is no `*args` or `**kwargs`
and is no static method. -/
def methodFrame? (fn scope : Place) (decorators params : List Place) : Option MethodFrame :=
  if !scope.isClass || hasDecorator decorators "staticmethod" then none
  else match params.head?.map Place.form with
    | some (.param kind name _ _) =>
      if kind.isVariadic then none else name.id?.map fun id => ⟨scope, fn, id⟩
    | _ => none

/-- The plan of a statement, a handler or a manager. -/
def planStatement (p scope : Place) (frame : Option MethodFrame) : List IndexStep :=
  let expr := visiting ⟨.expression, scope, none⟩
  let block (stmts : List Place) := stmts.flatMap (visiting ⟨.statement, scope, frame⟩)
  match p.form with
  | .functionDef _ _ decorators name params _ body =>
    decorators.flatMap expr ++ bindingEntry name p .functionDef scope
      ++ params.flatMap (visiting ⟨.parameterDefault, scope, none⟩) ++ params.flatMap (paramEntry p)
      ++ body.flatMap (visiting ⟨.statement, p, methodFrame? p scope decorators params⟩)
  | .classDef _ decorators name bases _ body =>
    decorators.flatMap expr ++ bases.flatMap expr ++ bindingEntry name p .classDef scope
      ++ body.flatMap (visiting ⟨.statement, p, none⟩)
  | .assign targets hint value =>
    let kind := if hint.isSome then .annotatedAssignment else .assignment
    value.toList.flatMap expr ++ targets.flatMap (visiting ⟨.target p kind, scope, frame⟩)
  | .augAssign _ target value =>
    expr value ++ visiting ⟨.target p .augmentedAssignment, scope, frame⟩ target
  | .forStmt _ target iterable body orElse =>
    expr iterable ++ visiting ⟨.target p .forTarget, scope, frame⟩ target ++ block body ++
      block orElse
  | .whileStmt test body orElse | .ifStmt _ test body orElse =>
    expr test ++ block body ++ block orElse
  | .tryStmt body handlers orElse final =>
    block body ++ block handlers ++ block orElse ++ block final
  | .handler type target body =>
    type.toList.flatMap expr ++ target.toList.flatMap (bindingEntry · p .exceptTarget scope) ++
      block body
  | .withStmt _ items body => block items ++ block body
  | .withItem manager target =>
    expr manager ++ target.toList.flatMap (visiting ⟨.target p .withTarget, scope, frame⟩)
  | .importStmt names => names.flatMap (itemEntry .importName scope)
  | .importFrom _ _ star names =>
    if star then [.add (.starImport scope p)] else names.flatMap (itemEntry .importFrom scope)
  | .globalStmt _ | .nonlocalStmt _ => []
  | form => form.parts.flatMap expr

/-- The plan of a visit. -/
def plan (p : Place) (visit : IndexVisit) : List IndexStep :=
  match visit.task with
  | .statement => planStatement p visit.scope visit.frame
  | .expression => planExpression p visit.scope
  | .target definition kind => planTarget p definition kind visit.scope visit.frame
  | .parameterDefault =>
    match p.form with
    | .param _ _ _ default => default.toList.flatMap (visiting ⟨.expression, visit.scope, none⟩)
    | _ => []

/-- The entries of a visited place in the order of effect. -/
def entriesOf (p : Place) (visit : IndexVisit) : List IndexEntry :=
  (p.plan visit).flatMap fun
    | .add entry => [entry]
    | .visit i visit => if h : i < p.children.length then entriesOf p.children[i] visit else []
termination_by sizeOf p.node
decreasing_by exact sizeOf_lt_of_mem_children (List.getElem_mem h)

/-- The entries of a module. -/
def moduleEntries (root : Place) : List IndexEntry :=
  root.children.flatMap (entriesOf · ⟨.statement, root, none⟩)

end Place

end NameInference
