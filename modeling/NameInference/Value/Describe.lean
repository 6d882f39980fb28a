import NameInference.Value.Basic

/-!
# Names and descriptions of values

Parents, names and texts of values in an arena. A value only refers to values with smaller handles,
which is what these functions recurse on; a reference that is not smaller leads nowhere.
-/

namespace NameInference

/-- The part of a path behind its last slash and before the last dot in it. -/
def pathStem (path : Text) : Text :=
  let base := ((Text.cutLast? 0x2F path).map (·.2)).getD path
  ((Text.cutLast? 0x2E base).map (·.1)).getD base

namespace Place

/-- The identifier that a definition gives to what it defines; a lambda gives none. -/
def definedName? (p : Place) : Option Text :=
  match p.node.form with
  | .functionDef _ _ _ name .. | .classDef _ _ name .. => name.id?
  | _ => none

/-- The place of the name in a definition. -/
def definedAt? (p : Place) : Option Place :=
  match p.form with
  | .functionDef _ _ _ name .. | .classDef _ _ name .. => some name
  | _ => none

/-- Whether the place is a lambda. -/
def isLambda (p : Place) : Bool :=
  match p.node.form with
  | .lambda .. => true
  | _ => false

/-- The parameters of a function or lambda. -/
def params (p : Place) : List Place :=
  match p.form with
  | .functionDef _ _ _ _ params .. | .lambda params _ => params
  | _ => []

end Place

namespace Values

/-- Whether the value of a handle satisfies a test. -/
def test (values : Values) (property : Value Place → Bool) (id : ValueId) : Bool :=
  ((values.get? id).map property).getD false

/-- Whether the handle is that of a class. -/
def isClass (values : Values) (id : ValueId) : Bool := values.test Value.isClass id

/-- Whether the handle is that of a module. -/
def isModule (values : Values) (id : ValueId) : Bool := values.test Value.isModule id

/-- Whether the handle is that of an instance or a literal. -/
def isInstance (values : Values) (id : ValueId) : Bool := values.test Value.isInstance id

/-- Whether the handle is that of a wrapper of the given kind. -/
def isWrapper (values : Values) (kind : WrapperKind) (id : ValueId) : Bool :=
  values.test (·.isWrapper kind) id

/-- The module of a handle that has source. -/
def module? (values : Values) (id : ValueId) : Option ModuleValue :=
  match values.get? id with
  | some (.module m) => some m
  | _ => none

/-- The definition, parent and owner of a function. -/
def function? (values : Values) (id : ValueId) : Option (Place × ValueId × Option ValueId) :=
  match values.get? id with
  | some (.function node parent owner) => some (node, parent, owner)
  | _ => none

/-- The function and arguments of an execution. -/
def execution? (values : Values) (id : ValueId) : Option (ValueId × ArgumentsId) :=
  match values.get? id with
  | some (.execution function arguments) => some (function, arguments)
  | _ => none

/-- The context in which a value was defined; modules and literals have none. -/
def parent? (values : Values) (id : ValueId) : Option ValueId :=
  match values.get? id with
  | some (.cls _ parent) | some (.function _ parent _) => some parent
  | some (.execution function _) => (values.function? function).map (·.2.1)
  | some (.inst cls _ _) => if _h : cls < id then values.parent? cls else none
  | some (.generic cls _) => if _h : cls < id then values.parent? cls else none
  | some (.wrapper _ wrapped _ _ _) => if _h : wrapped < id then values.parent? wrapped else none
  | _ => none
termination_by id

/-- The outermost context around a value. -/
def root (values : Values) (id : ValueId) : ValueId :=
  match values.parent? id with
  | none => id
  | some parent => if _h : parent < id then values.root parent else parent
termination_by id

/-- The value itself and the contexts around it, innermost first. -/
def contexts (values : Values) (id : ValueId) : List ValueId :=
  match values.parent? id with
  | none => [id]
  | some parent => if _h : parent < id then id :: values.contexts parent else [id, parent]
termination_by id

/-- The first context around that is no class. -/
def beyondClasses (values : Values) (id : ValueId) : ValueId :=
  if values.isClass id then
    match values.parent? id with
    | none => id
    | some parent => if _h : parent < id then values.beyondClasses parent else parent
  else id
termination_by id

/-- Whether a value comes from a descriptor module. -/
def isStub (values : Values) (id : ValueId) : Bool :=
  ((values.module? (values.root id)).map (·.isDescriptor)).getD false

/-- Whether a value is the module of the builtin names. -/
def isBuiltins (values : Values) (id : ValueId) : Bool :=
  match values.module? id with
  | some m => m.names == [Text.ofString "builtins"]
  | none => false

/-- The definition of a class. -/
def classNode? (values : Values) (id : ValueId) : Option Place :=
  match values.get? id with
  | some (.cls node _) => some node
  | some (.generic cls _) => if _h : cls < id then values.classNode? cls else none
  | _ => none
termination_by id

/-- The definition of a function, also within an execution or a wrapper: a `def` or a lambda. -/
def callableNode? (values : Values) (id : ValueId) : Option Place :=
  match values.get? id with
  | some (.function node _ _) => some node
  | some (.execution function _) => (values.function? function).map (·.1)
  | some (.wrapper kind wrapped _ _ _) =>
    if kind == .typeVar then none else if _h : wrapped < id then values.callableNode? wrapped
    else none
  | _ => none
termination_by id

/-- The `def` of a function, also within an execution or a wrapper. -/
def functionNode? (values : Values) (id : ValueId) : Option Place :=
  (values.callableNode? id).filter (!·.isLambda)

/-- The number of the tree that a value comes from. -/
def tree? (values : Values) (id : ValueId) : Option Nat :=
  (values.module? (values.root id)).bind (·.tree)

/-- The name of a value; an instance has the name of its class, a literal the name of its type. -/
def name (values : Values) (id : ValueId) : Text :=
  match values.get? id with
  | none => []
  | some (.module m) => m.names.getLast?.getD (pathStem m.path)
  | some (.cls node _) => node.definedName?.getD []
  | some (.function ..) | some (.execution ..) =>
    ((values.functionNode? id).bind Place.definedName?).getD "<lambda>"
  | some (.inst cls _ _) => if _h : cls < id then values.name cls else []
  | some (.compiled type _ _) => type
  | some (.generic cls _) => if _h : cls < id then values.name cls else []
  | some (.wrapper _ wrapped _ label _) =>
    if label.isEmpty then if _h : wrapped < id then values.name wrapped else [] else label
termination_by id

/-- The names that lead from a module to a value, if there are such names: nothing inside an
execution, no instance and no literal has them. -/
def qualifiedNames? (values : Values) (id : ValueId) : Option (List Text) :=
  match values.get? id with
  | some (.module _) => some []
  | some (.compiled _ _ isModule) => if isModule then some [] else none
  | some (.cls _ parent) =>
    if _h : parent < id then inside parent (values.qualifiedNames? parent) else none
  | some (.function _ parent owner) =>
    let outer := owner.getD parent
    if _h : outer < id then inside outer (values.qualifiedNames? outer) else none
  | some (.generic cls _) => if _h : cls < id then values.qualifiedNames? cls else none
  | some (.wrapper kind wrapped _ _ _) =>
    if kind == .typeVar then none else if _h : wrapped < id then values.qualifiedNames? wrapped
    else none
  | _ => none
termination_by id
where
  /-- The names of what is defined in a context with the given names. -/
  inside (outer : ValueId) (names : Option (List Text)) : Option (List Text) :=
    if (values.execution? outer).isSome then none else names.map (· ++ [values.name id])

/-- The qualified names behind the names of the module, joined by dots. -/
def fullName? (values : Values) (id : ValueId) : Option Text :=
  (values.qualifiedNames? id).map fun names =>
    let root := match values.get? (values.root id) with
      | some (.module m) => m.names
      | some (.compiled type _ true) => [type]
      | _ => []
    Text.dotted (root ++ names)

/-- A generic class with its parameters. -/
def genericText (values : Values) (cls : ValueId) (parameters : List ValueSet) : Text :=
  let parameter (set : ValueSet) : Text :=
    if set.isEmpty then "?"
    else Text.joined " | " (set.ids.map values.name)
  values.name cls ++ "[" ++ Text.joined ", " (parameters.map parameter)
    ++ "]"

/-- The text that shows a value. -/
def describe (values : Values) (id : ValueId) : Text :=
  let shown (kind : String) (name : Text) : Text := Text.ofString ("<" ++ kind) ++ name ++ ">"
  match values.get? id with
  | none => []
  | some (.module m) =>
    shown (if m.isDescriptor then "DescriptorModule: " else "Module: ")
      (if m.names.isEmpty then pathStem m.path else Text.dotted m.names)
  | some (.cls ..) => shown "Class: " (values.name id)
  | some (.function ..) => shown "Function: " (values.name id)
  | some (.execution ..) => shown "FunctionExecution: " (values.name id)
  | some (.inst cls _ _) =>
    shown "Instance of " <| match values.get? cls with
      | some (.generic cls parameters) => values.genericText cls parameters
      | _ => values.name cls
  | some (.compiled type text isModule) =>
    if isModule then shown "CompiledModule: " type else shown "" (type ++ ": " ++ text)
  | some (.generic cls parameters) => shown "GenericClass: " (values.genericText cls parameters)
  | some (.wrapper kind ..) => shown (kind.label ++ ": ") (values.name id)

end Values

end NameInference
