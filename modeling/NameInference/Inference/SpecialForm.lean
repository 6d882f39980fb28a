import NameInference.Inference.Lookup

/-!
# Special forms

Names of the typing module that mean something of their own in hints.
-/

namespace NameInference

namespace Place

/-- The position as of which a name is looked up: the start of its assignment, or its own. A name in
a hint is looked up in the finished scope. -/
def readPosition? (name child : Place) : List Place → Option Position
  | [] => some name.start
  | around :: rest =>
    match around.form with
    | .param _ _ hint _ => if hint.any (·.same child) then none else readPosition? name around rest
    | .functionDef _ _ _ _ _ returns _ =>
      if returns.any (·.same child) then none else some name.start
    | .assign _ hint _ => if hint.any (·.same child) then none else some around.start
    | .augAssign .. => some around.start
    | .lambda .. | .classDef .. | .module _ => some name.start
    | _ => readPosition? name around rest

end Place

namespace Values

/-- Whether the value is a module of typing names. -/
def isTyping (values : Values) (id : ValueId) : Bool :=
  match values.module? id with
  | some m => m.names == [Text.ofString "typing"] || m.names == [Text.ofString "typing_extensions"]
  | none => false

end Values

namespace Infer

/-- The names that a read of a name in a context refers to. -/
def namesRead (context : ValueId) (name : Place) (id : Text) : Infer (List FoundName) := do
  let tree ← query (·.tree? context)
  let position := if tree == some name.tree then name.readPosition? name name.ancestors else none
  findNames context id position (some name)

/-- The first target that is a name of the typing module. -/
def firstTypingName (names : List FoundName) : Infer (Option Text) :=
  match names with
  | [] => return none
  | name :: rest => do
    let targets ← targetsOf name
    let found ← query fun values => targets.find? fun target =>
      target.treeName?.isSome && target.parent?.any values.isTyping
    match found with
    | some target => return some target.text
    | none => firstTypingName rest

/-- The name of the typing module that an expression is. -/
def specialForm? (context : ValueId) (node : Place) : Infer (Option Text) := do
  match node.form with
  | .name id => firstTypingName (← namesRead context node id)
  | .attr value name _ =>
    let values ← eval context value
    return if ← query fun arena => values.ids.any arena.isTyping then some name else none
  | _ => return none

/-- The classes that some typing names stand for when they are given parameters. -/
def typingAliases : List (String × String) :=
  [("List", "list"), ("Dict", "dict"), ("Set", "set"), ("FrozenSet", "frozenset"),
    ("Tuple", "tuple"), ("DefaultDict", "dict")]

/-- The values of a special form with parameters, if it is one that takes them. -/
def specialSubscript? (context : ValueId) (form : Text) (index : Place) :
    Infer (Option ValueSet) := do
  let elements := index.tupleElements
  let is (name : String) : Bool := form == Text.ofString name
  if is "Optional" then
    let nothing ← noneValue
    let values ← collect elements (eval context)
    return some (values.union nothing)
  else if is "Union" || is "Literal" then return some (← collect elements (eval context))
  else if is "ClassVar" || is "Final" || is "Annotated" then
    match elements with
    | [] => return some ∅
    | first :: _ => return some (← eval context first)
  else if is "Callable" then return some ∅
  else match typingAliases.find? fun (name, _) => is name with
    | none => return none
    | some (_, cls) =>
      let parameters ← elements.mapM (eval context)
      return some (← gather (← builtinClass cls).ids (defineGenerics · parameters))

end Infer

end NameInference
