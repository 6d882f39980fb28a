import NameInference.Inference.Basic
import NameInference.Inference.Flow
import NameInference.Scope.Index

/-!
# Looking names up in layers

Of the bindings of a name in a scope, the ones that may hold at the origin are found: later bindings
hide earlier ones as soon as they are certain to be reached.
-/

namespace NameInference

/-- Whether a name is private to the class it is used in. -/
def isMangled (name : Text) : Bool :=
  name.startsWith "__" && !name.endsWith "__"

/-- Whether a name begins and ends with two underscores and has more between them. -/
def isDunder (name : Text) : Bool :=
  name.length > 4 && name.startsWith "__" && name.endsWith "__"

namespace Place

/-- Whether the place is the name, or an attribute of the name. -/
def mentions (name : Text) (p : Place) : Bool :=
  match p.node.form with
  | .name id => id == name
  | .attr _ id _ => id == name
  | _ => false

end Place

namespace Binding

/-- A `def` that only adds a further signature. -/
def isOverload (b : Binding) : Bool :=
  b.kind == .functionDef &&
    match b.definition.form with
    | .functionDef _ _ decorators .. => decorators.any (Place.mentions "overload")
    | _ => false

/-- A hint without a value in a class body declares an attribute of instances only, unless it says
otherwise. -/
def isInstanceDeclaration (b : Binding) : Bool :=
  b.kind == .annotatedAssignment &&
    match b.definition.form with
    | .assign _ (some hint) none => !hint.walk.any (Place.mentions "ClassVar")
    | _ => false

/-- Whether a descriptor shows the binding to other modules: no import without `as`, and no private
name. -/
def isExported (b : Binding) : Bool :=
  let isPlainImport := (b.kind == .importName || b.kind == .importFrom) &&
    match b.definition.node.form with
    | .importItem _ hasAs _ => !hasAs
    | _ => false
  !isPlainImport && (!b.id.startsWith "_" || isDunder b.id)

/-- Whether one binding stands before or at the start of another; the order of look-up is from the
last to the first. -/
def isNoEarlier (a b : Binding) : Bool := !a.name.start.before b.name.start

end Binding

namespace Bindings

variable {m : Type → Type} [Monad m] (verdict : Binding → m Reachability)

/-- The bindings up to the first that is certain to be reached, without those that are not reached.
-/
def takeReached : List Binding → m (List Binding)
  | [] => return []
  | b :: rest => do
    match ← verdict b with
    | .unreachable => takeReached rest
    | .reachable => return [b]
    | .unsure => return b :: (← takeReached rest)

/-- The visible bindings before a limit that may hold, last first; of these, the accessible ones. -/
def select (visible accessible : Binding → Bool) (limit : Option Position)
    (bindings : List Binding) : m (List Binding) := do
  let candidates := bindings.filter fun b => visible b && limit.all b.name.start.before
  return (← takeReached verdict (candidates.mergeSort Binding.isNoEarlier)).filter accessible

end Bindings

namespace ScopeView

/-- Whether a binding can be seen at all. -/
def isVisible (view : ScopeView) (b : Binding) : Bool :=
  match view with
  | descriptor true => b.isExported
  | _ => true

/-- Whether a binding can be used from an origin. Members that are private to a class can only be
used inside it. -/
def isAccessible (view : ScopeView) (scope : Place) (origin : Option Place) (b : Binding) : Bool :=
  match view with
  | member _ receiver =>
    !(receiver.isNone && b.isInstanceDeclaration) && (!isMangled b.id || origin.any scope.covers)
  | _ => true

/-- The name that is found for a binding. -/
def found (view : ScopeView) (context : ValueId) (b : Binding) : FoundName :=
  match view with
  | execution => if b.kind == .param then .param b context else .tree b context
  | member lookup receiver => .member b context lookup receiver
  | _ => .tree b context

end ScopeView

namespace Infer

/-- Whether a binding in a scope is reached. Bindings of other scopes and overloads are never
certain. -/
def bindingVerdict (context : ValueId) (scope : Place) (origin : Option Place) (b : Binding) :
    Infer Reachability := do
  if !b.scope.same scope then return .unsure
  let verdict ← b.name.reachability (check context) (some scope) origin
  return if verdict == .reachable && b.isOverload then .unsure else verdict

/-- The names that a scope has for an identifier. -/
def scopeNames (context : ValueId) (scope : Place) (limit : Option Position) (origin : Option Place)
    (view : ScopeView) (name : Text) : Infer (List FoundName) := do
  if ScopeIndex.isRedirected scope name then return []
  let bindings ← inspect fun s => (s.indexOf scope).lookup scope name
  let selected ← Bindings.select (bindingVerdict context scope origin) view.isVisible
    (view.isAccessible scope origin) limit bindings
  return selected.map (view.found context)

/-- The names that the methods of a class give to an attribute of an instance. -/
def selfNames (receiver defining : ValueId) (origin : Option Place) (name : Text) :
    Infer (List FoundName) := do
  match ← query (·.classNode? defining) with
  | none => return []
  | some cls =>
    if isMangled name && !origin.any cls.covers then return []
    let attrs ← inspect fun s => (s.indexOf cls).lookupSelf cls name
    return attrs.map (.selfAttribute · receiver defining)

/-- The names that a layer has for an identifier. -/
def namesIn (layer : Layer) (name : Text) : Infer (List FoundName) :=
  match layer with
  | .scope _ none _ _ _ => return []
  | .scope context (some scope) limit origin view => scopeNames context scope limit origin view name
  | .selfAttributes receiver defining origin => selfNames receiver defining origin name
  | .table names => return (names.get? name).toList

/-- All identifiers of a layer in ascending order. -/
def identifiersOf (layer : Layer) : Infer (List Text) :=
  match layer with
  | .scope _ none _ _ _ => return []
  | .scope _ (some scope) _ _ _ => inspect fun s => (s.indexOf scope).namesOf scope
  | .selfAttributes _ defining _ => do
    match ← query (·.classNode? defining) with
    | none => return []
    | some cls => inspect fun s => (s.indexOf cls).selfNamesOf cls
  | .table names => return names.map (·.1)

/-- All names of a layer. -/
def allNamesIn (layer : Layer) : Infer (List FoundName) := do
  return (← (← identifiersOf layer).mapM (namesIn layer)).flatten

/-- The names that the first layer that knows the identifier has for it. -/
def namesInFirst (layers : List Layer) (name : Text) : Infer (List FoundName) :=
  match layers with
  | [] => return []
  | layer :: rest => do
    let found ← namesIn layer name
    if found.isEmpty then namesInFirst rest name else return found

end Infer

end NameInference
