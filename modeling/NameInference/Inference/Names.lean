import NameInference.Inference.Bindings

/-!
# Values and targets of found names

What a found name stands for, and the names it refers to: an imported name leads to the name in the
module that it is imported from.
-/

namespace NameInference.Infer

/-- The arguments of the method that binds an attribute of an instance: those that made the
instance, if the method is its initialiser, or unknown ones. -/
def selfArguments (receiver : ValueId) (method : Place) : Infer (ArgumentList Place) :=
  inspect fun s =>
    let arguments := match s.values.get? receiver with
      | some (.inst _ arguments _) => arguments
      | _ => 0
    let list :=
      if method.definedName? == some "__init__" && arguments != 0 then s.argumentList arguments
      else { isAnonymous := true }
    { list with receiver := some receiver }

/-- The values of a found name. -/
def inferName (name : FoundName) : Infer ValueSet := do
  match name with
  | .tree b parent => inferBinding parent b
  | .param b execution => inferParam execution b.definition
  | .member b defining lookup receiver =>
    collect (← inferBinding defining b).ids (bindMember · lookup receiver)
  | .selfAttribute a receiver defining =>
    let function ← makeFunction a.method defining
    let arguments ← internArguments (← selfArguments receiver a.method)
    let execution ← makeExecution function arguments
    assignedValue execution a.definition a.kind a.target
  | .context value _ _ => return .single value
  | .synthetic _ values => return values
  | .submodule _ names => importModule names

/-- The values of found names. -/
def inferNames (names : List FoundName) : Infer ValueSet := collect names inferName

/-- The name of a value. -/
def nameOfValue (id : ValueId) : Infer FoundName := return .context id (← query (·.name id)) none

/-- The names in a module that an imported name refers to. -/
def importTargets (source : ValueId) (wanted : Text) : Infer (List FoundName) := do
  let names ← namesInFirst (← layersOf source) wanted
  if names.isEmpty then (← attrOf source wanted).ids.mapM nameOfValue
  else return (← names.mapM targetsOf).flatten

/-- The names that an imported name refers to in the modules it is imported from. -/
def fromTargets (context : ValueId) (item : Place) : Infer (List FoundName) := do
  match item.node.form, item.parent? with
  | .importItem path _ _, some stmt =>
    match path.getLast? with
    | none => return []
    | some wanted =>
      let sources ← importFromModule (← query (·.root context)) stmt
      return (← sources.ids.mapM (importTargets · wanted)).flatten
  | _, _ => return []

/-- Computes the names that a found name refers to; a name that refers to no other one refers to
itself. -/
def computeTargets (name : FoundName) : Infer (List FoundName) := do
  let targets ← match name with
    | .tree b parent | .member b parent _ _ =>
      match b.kind with
      | .importFrom => fromTargets parent b.definition
      | .importName => (← inferName name).ids.mapM nameOfValue
      | _ => pure []
    | _ => pure []
  return if targets.isEmpty then [name] else targets

/-- What kind of thing a value is. -/
def valueType (values : Values) (id : ValueId) : Text :=
  Text.ofString <|
    if values.isModule id then "module"
    else if values.isClass id then "class"
    else if values.isInstance id then "instance"
    else if values.isWrapper .property id then "property"
    else if values.isWrapper .typeVar id then "instance"
    else "function"

/-- What kind of thing the first value of a name is. -/
def firstValueType (name : FoundName) : Infer Text := do
  match (← inferName name).first? with
  | none => return "statement"
  | some id => query (valueType · id)

/-- What kind of thing a found name is. -/
def nameType (name : FoundName) : Infer Text := do
  match name with
  | .param .. => return "param"
  | .tree b _ | .member b _ _ _ =>
    match b.kind with
    | .functionDef => return "function"
    | .classDef => return "class"
    | .param => return "param"
    | .importName | .importFrom => firstValueType name
    | _ => return "statement"
  | .selfAttribute .. => return "statement"
  | .submodule .. => return "module"
  | .context .. | .synthetic .. => firstValueType name

/-- The names that lead from a module to a found name. -/
def qualifiedName? (name : FoundName) : Infer (Option (List Text)) := do
  match name with
  | .tree b parent | .param b parent | .member b parent _ _ =>
    query fun values => (values.qualifiedNames? parent).map (· ++ [b.id])
  | .context value _ _ => query (·.qualifiedNames? value)
  | _ => return none

/-- Computes the values of an attribute of a value. Instances whose class has a hook for unknown
attributes get what the hook gives. -/
def computeAttr (id : ValueId) (name : Text) (origin : Option Place) : Infer ValueSet := do
  let layers ← layersOf id origin
  let names ← namesInFirst layers name
  if !names.isEmpty then return ← inferNames names
  match ← query (·.get? id) with
  | some (.inst ..) =>
    if name == "__getattr__" || name == "__getattribute__" then return ∅
    let hook ← inferNames (← namesInFirst layers "__getattr__")
    if hook.isEmpty then return ∅
    executeWithValues hook [.single (← makeLiteral "str" name)]
  | _ => return ∅

end NameInference.Infer
