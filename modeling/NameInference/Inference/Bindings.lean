import NameInference.Inference.Execute

/-!
# Values of bindings

What a binding gives to its name: the defined function or class with its decorators applied, the
imported module or name, the caught exception, or the part of an assigned value that unpacking gives
to the target.
-/

namespace NameInference

namespace Infer

/-- The values at an index of each of the given sequences. A star before the index leaves only the
items at large. -/
def itemsAt (values : ValueSet) (i : Nat) : Infer ValueSet :=
  collect values.ids fun id => do
    match ← query (·.display? (.single id)) with
    | some (display, context) =>
      match display.form with
      | .tuple elements | .list elements =>
        match elements[i]? with
        | some element =>
          if (elements.take (i + 1)).any Place.isStarred then iterateOne id
          else eval context element
        | none => iterateOne id
      | _ => iterateOne id
    | none => iterateOne id

/-- The first element that holds a place, with its index. -/
def elementHolding? (wanted : Place) (elements : List Place) : Option (Nat × Place) :=
  (elements.zipIdx.find? fun (e, _) => e.covers wanted).map fun (e, i) => (i, e)

/-- The part of the values assigned to a target that goes to the wanted place in it; `depth` bounds
the nesting of targets. -/
def unpackTarget (depth : Nat) (values : ValueSet) (target wanted : Place) : Infer ValueSet :=
  match depth with
  | 0 => return values
  | depth + 1 =>
    if target.same wanted then return values
    else match target.form with
      | .tuple elements | .list elements =>
        match elementHolding? wanted elements with
        | none => return ∅
        | some (i, element) => do
          if element.isStarred then builtinInstance "list"
          else unpackTarget depth (← itemsAt values i) element wanted
      | .starred _ => builtinInstance "list"
      | _ => return values

/-- The part of the values assigned to a target that goes to the wanted place in it. -/
def unpackTo (values : ValueSet) (target wanted : Place) : Infer ValueSet :=
  unpackTarget (wanted.depth - target.depth + 1) values target wanted

/-- Instances of the exceptions that a handler catches. -/
def exceptionInstances (context : ValueId) (handler : Place) : Infer ValueSet := do
  match handler.form with
  | .handler (some type) _ _ =>
    collect (← eval context type).ids fun id => do
      if ← query (·.isClass id) then return .single (← makeInstance id)
      else if ← query (·.isInstance id) then instancesOf (← iterateOne id)
      else return ∅
  | _ => builtinInstance "BaseException"

/-- The wrapper that a decorator makes, by the full name of its values or, if it has none, by its
own name. -/
def decoratorKind? (decorator : Place) (decorators : ValueSet) : Infer (Option WrapperKind) := do
  let names ← query fun values => decorators.ids.filterMap values.fullName?
  let names := match decorators.isEmpty, decorator.id? with
    | true, some id => [Text.ofString "builtins." ++ id]
    | _, _ => names
  return names.findSome? fun name =>
    if name == Text.ofString "builtins.property" then some .property
    else if name == Text.ofString "builtins.staticmethod" then some .staticMethod
    else if name == Text.ofString "builtins.classmethod" then some .classMethod
    else none

/-- Whether a decorator leaves what it decorates as it is. -/
def isIdentityDecorator (decorators : ValueSet) : Infer Bool :=
  query fun values => decorators.ids.any fun id =>
    let name := values.fullName? id
    name == some (Text.ofString "typing.overload") || name == some (Text.ofString "typing.final")
      || name == some (Text.ofString "abc.abstractmethod")

/-- The properties that `x.setter`, `x.getter` or `x.deleter` goes back to. -/
def accessorProperties (context : ValueId) (decorator : Place) : Infer ValueSet := do
  match decorator.form with
  | .attr value name _ =>
    if [Text.ofString "setter", Text.ofString "getter", Text.ofString "deleter"].contains name then
      let found ← eval context value
      query fun values => found.filter (values.isWrapper .property)
    else return ∅
  | _ => return ∅

/-- Applies one decorator. -/
def applyDecorator (context : ValueId) (values : ValueSet) (decorator : Place) :
    Infer ValueSet := do
  let properties ← accessorProperties context decorator
  if !properties.isEmpty then return properties
  let decorators ← eval context decorator
  match ← decoratorKind? decorator decorators with
  | some kind =>
    gather values.ids fun id => do
      let (label, node) ← query fun values => (values.name id, values.functionNode? id)
      makeWrapper kind id none label node
  | none =>
    if ← isIdentityDecorator decorators then return values
    let result ← executeWithValues decorators [values]
    if result.isEmpty then
      debug fun _ => "decorator returned nothing, keeping the definition"
      return values
    return result

/-- Applies decorators, the last one first. -/
def applyDecorators (context : ValueId) (decorators : List Place) (undecorated : ValueId) :
    Infer ValueSet :=
  decorators.reverse.foldlM (applyDecorator context) (.single undecorated)

/-- What a class member is when it is seen through a class, or through an instance if there is a
receiver. -/
def bindMember (id lookup : ValueId) (receiver : Option ValueId) : Infer ValueSet := do
  match ← query (·.get? id), receiver with
  | some (.function ..), some receiver =>
    let (label, node) ← query fun values => (values.name id, values.functionNode? id)
    return .single (← makeWrapper .boundMethod id (some receiver) label node)
  | some (.wrapper .property wrapped _ label node), some receiver =>
    let getter ← makeWrapper .boundMethod wrapped (some receiver) label node
    execute getter (← internArguments {})
  | some (.wrapper .staticMethod wrapped ..), _ => return .single wrapped
  | some (.wrapper .classMethod wrapped _ label node), _ =>
    return .single (← makeWrapper .boundMethod wrapped (some lookup) label node)
  | _, _ => return .single id

/-- Instances of the classes of some values. -/
def sameKind (values : ValueSet) : Infer ValueSet :=
  collect values.ids fun id => do instancesOf (← classOf id)

/-- What entering a context manager gives, or the manager itself. -/
def enter (manager : ValueId) : Infer ValueSet := do
  let result ← executeWithValues (← attrOf manager "__enter__") []
  return if result.isEmpty then .single manager else result

/-- The values that a definition gives to a target in it. -/
def assignedValue (context : ValueId) (definition : Place) (kind : BindingKind) (target : Place) :
    Infer ValueSet := do
  match kind, definition.form with
  | .assignment, .assign targets hint value | .annotatedAssignment, .assign targets hint value =>
    let promised ← match hint with
      | some hint => executeHint context hint
      | none => pure ∅
    if !promised.isEmpty then return promised
    match value with
    | none => return ∅
    | some value =>
      let values ← eval context value
      match targets.find? (·.covers target) with
      | some whole => unpackTo values whole target
      | none => return values
  | .augmentedAssignment, .augAssign _ whole value =>
    let out ← sameKind (← eval context whole)
    if out.isEmpty then sameKind (← eval context value) else return out
  | .forTarget, .forStmt _ whole iterable _ _ =>
    unpackTo (← iterate (← eval context iterable)) whole target
  | .withTarget, .withItem manager (some whole) =>
    unpackTo (← collect (← eval context manager).ids enter) whole target
  | .namedExpr, .named _ value => eval context value
  | .comprehensionTarget, .comprehension _ _ _ clauses =>
    match clauses.find? (·.target.covers target) with
    | some clause => unpackTo (← iterate (← eval context clause.iterable)) clause.target target
    | none => return ∅
  | _, _ => return ∅

/-- The decorators of a definition. -/
def decoratorsOf (definition : Place) : List Place :=
  match definition.form with
  | .functionDef _ _ decorators .. => decorators
  | .classDef _ decorators .. => decorators
  | _ => []

/-- Computes the values that a binding gives to its name. -/
def computeBinding (b : Binding) (context : ValueId) : Infer ValueSet := indented do
  match b.kind with
  | .functionDef =>
    applyDecorators context (decoratorsOf b.definition) (← makeFunction b.definition context)
  | .classDef =>
    applyDecorators context (decoratorsOf b.definition) (← makeClass b.definition context)
  | .exceptTarget => exceptionInstances context b.definition
  | .importName | .importFrom => inferImport context b.definition
  | .param =>
    let execution ←
      if (← query (·.function? context)).isSome then makeAnonymousExecution context
      else pure context
    if (← query (·.execution? execution)).isSome then inferParam execution b.definition
    else return ∅
  | kind => assignedValue context b.definition kind b.name

end Infer

end NameInference
