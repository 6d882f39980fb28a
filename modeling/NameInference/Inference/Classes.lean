import NameInference.Inference.Make

/-!
# Classes

Bases, method resolution order, metaclasses and type variables of classes. A generic class has those
of the class it gives parameters to.
-/

namespace NameInference

namespace Values

/-- The class that a generic class gives parameters to, or the value itself. -/
def plainClass (values : Values) (id : ValueId) : ValueId :=
  match values.get? id with
  | some (.generic cls _) => cls
  | _ => id

/-- The definition of a plain class and the context it is in. -/
def class? (values : Values) (id : ValueId) : Option (Place × ValueId) :=
  match values.get? id with
  | some (.cls node parent) => some (node, parent)
  | _ => none

/-- Whether the value is the class that all others derive from. -/
def isBuiltinObject (values : Values) (id : ValueId) : Bool :=
  values.isBuiltins (values.root id) && values.name id == "object"

end Values

namespace Place

/-- The base expressions of a class; spread bases do not count. -/
def baseExprs (p : Place) : List Place :=
  match p.form with
  | .classDef _ _ _ bases _ _ => bases.filter fun base =>
    match base.node.form with
    | .starred _ => false
    | _ => true
  | _ => []

/-- The keyword arguments in the header of a class. -/
def classKeywords (p : Place) : List (Keyword Place) :=
  match p.form with
  | .classDef _ _ _ _ keywords _ => keywords
  | _ => []

/-- The elements of a tuple, or the place itself. -/
def tupleElements (p : Place) : List Place :=
  match p.form with
  | .tuple elements => elements
  | _ => [p]

/-- The indices of all subscripts at or below the place. -/
def subscriptIndices (p : Place) : List Place :=
  p.walk.filterMap fun q =>
    match q.form with
    | .subscript _ index => some index
    | _ => none

end Place

namespace Infer

/-- Asks about the plain class behind a value; other values have the given answer. -/
def ofPlainClass {α : Type} (cls : ValueId) (other : α) (question : ValueId → Infer α) :
    Infer α := do
  let plain ← query (·.plainClass cls)
  if (← query (·.class? plain)).isSome then question plain else return other

/-- The values of each base of a class. -/
def bases (cls : ValueId) : Infer (List ValueSet) :=
  ofPlainClass cls [] fun plain => ask (.bases plain)

/-- The metaclasses of a class. -/
def metaclasses (cls : ValueId) : Infer ValueSet :=
  ofPlainClass cls ∅ fun plain => ask (.metaclasses plain)

/-- The type variables of a class, in the order in which its bases mention them. -/
def typeVars (cls : ValueId) : Infer (List ValueId) :=
  ofPlainClass cls [] fun plain => ask (.typeVars plain)

/-- Computes the bases of a plain class. One that declares none derives from the builtin `object`.
-/
def computeBases (cls : ValueId) : Infer (List ValueSet) := do
  match ← query (·.class? cls) with
  | none => return []
  | some (node, parent) =>
    let exprs := node.baseExprs
    let declared ← exprs.mapM (eval parent)
    if !exprs.isEmpty || (← query (·.isBuiltinObject cls)) then return declared
    let object ← builtinClass "object"
    return if object.isEmpty || object.contains cls then [] else [object]

/-- Those members of the sets that are classes, in order. -/
def classesIn (sets : List ValueSet) : Infer (List ValueId) :=
  query fun values => (sets.flatMap (·.ids)).filter values.isClass

/-- Appends what is not there yet. -/
def appendNew (list : List ValueId) (id : ValueId) : List ValueId :=
  if list.contains id then list else list ++ [id]

/-- Computes the method resolution order of a class: the class, then the orders of its bases, each
class where it occurs first. -/
def computeOrder (cls : ValueId) (grow : (List ValueId → List ValueId) → Infer Unit) :
    Infer Unit := do
  grow (· ++ [cls])
  for base in ← classesIn (← bases cls) do
    for member in ← order base do
      grow (appendNew · member)

/-- The first answer that is not empty. -/
def firstNonempty {α : Type} (items : List α) (f : α → Infer ValueSet) : Infer ValueSet :=
  match items with
  | [] => return ∅
  | item :: rest => do
    let found ← f item
    if found.isEmpty then firstNonempty rest f else return found

/-- Computes the metaclasses of a plain class: those it declares, or those of the first base that
has some. -/
def computeMetaclasses (cls : ValueId) : Infer ValueSet := do
  match ← query (·.class? cls) with
  | none => return ∅
  | some (node, parent) =>
    let declared := node.classKeywords.filter (·.name == Text.ofString "metaclass")
    let found ← firstNonempty declared fun keyword => do
      let values ← eval parent keyword.value
      query fun arena => values.filter arena.isClass
    if !found.isEmpty then return found
    firstNonempty (← classesIn (← bases cls)) metaclasses

/-- Computes the type variables of a plain class. -/
def computeTypeVars (cls : ValueId) : Infer (List ValueId) := do
  match ← query (·.class? cls) with
  | none => return []
  | some (node, parent) =>
    let indices := node.baseExprs.flatMap Place.subscriptIndices
    (indices.flatMap Place.tupleElements).foldlM (fun out element => do
      let values ← eval parent element
      query fun arena => (values.ids.filter (arena.isWrapper .typeVar)).foldl appendNew out) []

/-- Gives a class parameters, as many as it has type variables; nothing is known of those that are
not given. -/
def defineGenerics (cls : ValueId) (parameters : List ValueSet) : Infer ValueId := do
  if parameters.isEmpty then return cls
  let plain ← query (·.plainClass cls)
  let count := match (← typeVars plain).length with
    | 0 => parameters.length
    | n => n
  makeGeneric plain ((List.range count).map fun i => parameters[i]?.getD ∅)

/-- Values of type variables. -/
abbrev TypeVarBindings := List (ValueId × ValueSet)

/-- The values of the type variables of a generic class. -/
def genericBindings (cls : ValueId) : Infer TypeVarBindings := do
  match ← query (·.get? cls) with
  | some (.generic plain parameters) => return (← typeVars plain).zip parameters
  | _ => return []

/-- The classes of a value. -/
def classOf (id : ValueId) : Infer ValueSet := do
  match ← query (·.get? id) with
  | some (.inst cls ..) => return .single cls
  | some (.compiled type _ isModule) => if isModule then return ∅ else builtinClassNamed type
  | some (.cls ..) =>
    let declared ← metaclasses id
    if declared.isEmpty then builtinClass "type" else return declared
  | some (.generic ..) => builtinClass "type"
  | some (.function ..) => builtinClass "function"
  | some (.wrapper kind ..) =>
    match kind with
    | .property => builtinClass "property"
    | .typeVar => return ∅
    | _ => builtinClass "function"
  | _ => return ∅

end Infer

end NameInference
