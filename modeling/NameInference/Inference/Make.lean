import NameInference.Inference.Basic

/-!
# Making values

Every value is interned when it is made. Literals keep their text; the classes of the builtin module
are looked up once.
-/

namespace NameInference.Infer

/-- The handle of a value. -/
def intern (value : Value Place) : Infer ValueId := modifyGet (Session.intern value)

/-- The handle of an argument list. -/
def internArguments (list : ArgumentList Place) : Infer ArgumentsId :=
  modifyGet (Session.internArguments list)

/-- The argument list of a handle. -/
def argumentList (id : ArgumentsId) : Infer (ArgumentList Place) := inspect (·.argumentList id)

/-- The class that a definition makes in a context. -/
def makeClass (node : Place) (parent : ValueId) : Infer ValueId := intern (.cls node parent)

/-- The function that a `def` or a lambda makes in a context. -/
def makeFunction (node : Place) (context : ValueId) : Infer ValueId := do
  let values := (← get).values
  let parent := values.beyondClasses context
  let owner := if values.isClass context then some context else none
  intern (.function node parent owner)

/-- The execution of a function with arguments. -/
def makeExecution (function : ValueId) (arguments : ArgumentsId) : Infer ValueId :=
  intern (.execution function arguments)

/-- The instance of a class that a call with the arguments makes. -/
def makeInstance (cls : ValueId) (arguments : ArgumentsId := 0) : Infer ValueId :=
  intern (.inst cls arguments none)

/-- The execution of a function by an unknown caller; a method is executed on an instance of its
class. -/
def makeAnonymousExecution (function : ValueId) : Infer ValueId := do
  match (← query (·.function? function)).bind (·.2.2) with
  | none => makeExecution function 0
  | some owner =>
    let receiver ← makeInstance owner
    makeExecution function (← internArguments { isAnonymous := true, receiver := some receiver })

/-- The instance of a class that a display makes in a context. -/
def makeDisplay (cls : ValueId) (display : Place) (context : ValueId) : Infer ValueId :=
  intern (.inst cls 0 (some (display, context)))

/-- The literal of a type with a text. -/
def makeLiteral (type : String) (text : Text) : Infer ValueId :=
  intern (.compiled (Text.ofString type) text false)

/-- A class with parameters. -/
def makeGeneric (cls : ValueId) (parameters : List ValueSet) : Infer ValueId :=
  intern (.generic cls parameters)

/-- A wrapper around a value. -/
def makeWrapper (kind : WrapperKind) (wrapped : ValueId) (extra : Option ValueId) (label : Text)
    (node : Option Place) : Infer ValueId :=
  intern (.wrapper kind wrapped extra label node)

/-- The value of `None`. -/
def noneValue : Infer ValueSet := return .single (← makeLiteral "NoneType" "None")

/-- The value of a literal; a formatted string has none. -/
def literal? (node : Place) : Infer (Option ValueId) := do
  match node.node.form with
  | .int text => return some (← makeLiteral "int" text)
  | .float text => return some (← makeLiteral "float" text)
  | .imag text => return some (← makeLiteral "complex" text)
  | .string value formatted =>
    if formatted then return none else return some (← makeLiteral "str" value)
  | .bytes value => return some (← makeLiteral "bytes" value)
  | .bool value =>
    return some (← makeLiteral "bool" (Text.ofString (if value then "True" else "False")))
  | .noneLit => return some (← makeLiteral "NoneType" "None")
  | .ellipsis => return some (← makeLiteral "ellipsis" "...")
  | _ => return none

/-- The module of the builtin names. -/
def builtinsModule : Infer ValueId := do
  match (← get).builtins with
  | some id => return id
  | none =>
    let modules ← importModule ["builtins"]
    match ← query fun values => modules.ids.find? fun id => (values.module? id).isSome with
    | some id =>
      modify fun s => { s with builtins := some id }
      return id
    | none =>
      throw (.unreadable "builtins" "no builtins module available")

/-- The classes of the builtin module with a name. Nothing is known of a class while it is being
looked up, and an empty answer is not kept. -/
def builtinClassNamed (name : Text) : Infer ValueSet := do
  let s ← get
  match s.builtinClasses[name]? with
  | some classes => return classes
  | none =>
    if s.pendingClasses.contains name then return ∅
    modify fun s => { s with pendingClasses := name :: s.pendingClasses }
    let found ← try
        let found ← attrOf (← builtinsModule) name
        query fun values => found.filter values.isClass
      finally modify fun s => { s with pendingClasses := s.pendingClasses.erase name }
    unless found.isEmpty do
      modify fun s => { s with builtinClasses := s.builtinClasses.insert name found }
    return found

/-- The classes of the builtin module with a name. -/
def builtinClass (name : String) : Infer ValueSet := builtinClassNamed (Text.ofString name)

/-- Instances of those of the values that are classes. -/
def instancesOf (classes : ValueSet) : Infer ValueSet := do
  let classes ← query fun values => classes.filter values.isClass
  gather classes.ids (makeInstance ·)

/-- Instances of the builtin classes with a name. -/
def builtinInstance (name : String) : Infer ValueSet := do instancesOf (← builtinClass name)

/-- The tuple or dictionary that holds the values of a `*args` or `**kwargs` parameter. -/
def packedValue (name : String) (values : List ValueSet) : Infer ValueSet := do
  gather (← builtinClass name).ids fun cls => do
    makeInstance cls (← internArguments { values, isPacked := true })

/-- Calls some values with the given positional values. -/
def executeWithValues (callees : ValueSet) (values : List ValueSet) : Infer ValueSet := do
  if callees.isEmpty then return ∅
  executeAll callees (← internArguments { values })

end NameInference.Infer
