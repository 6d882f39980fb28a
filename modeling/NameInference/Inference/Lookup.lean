import NameInference.Inference.Convert
import NameInference.Inference.Layer

/-!
# Looking names up

The layers of values, the layers that are seen from inside a context, and the names that they hold
for an identifier.
-/

namespace NameInference

namespace Place

/-- The scopes around a place, innermost first. -/
def scopesAround (p : Place) : List Place :=
  match _h : p.scope? with
  | none => []
  | some scope => scope :: scope.scopesAround
termination_by p.depth
decreasing_by exact depth_scope? _h

/-- Where the header of a definition ends. -/
def headerEnd? (p : Place) : Option Position :=
  match p.node.form with
  | .functionDef _ colon .. => some colon
  | .classDef colon .. => some colon
  | _ => none

/-- A name in the header of a definition is looked up as of the start of the definition. -/
def lookupLimit (origin : Place) (position : Position) : Position :=
  match origin.ancestors.find? fun p => p.isLambda || p.isFunction || p.isClass with
  | none => position
  | some around =>
    if around.headerEnd?.any position.before then around.start else position

end Place

namespace Infer

/-- The layers of the members of a class, as seen through the class or an instance of it. -/
def memberLayers (lookup : ValueId) (receiver : Option ValueId) (origin : Option Place) :
    Infer (List Layer) := do
  let order ← order lookup
  query fun values => order.filterMap fun cls =>
    (values.classNode? cls).map fun node =>
      .scope cls (some node) none origin (.member lookup receiver)

/-- The names of the modules in a package. -/
def submoduleTable (id : ValueId) (names : List Text) : Infer (Table FoundName) := do
  let submodules ← inspect (·.submoduleNames id)
  return Table.ofList (submodules.map fun name => (name, .submodule id (names ++ [name])))

/-- The attributes that every module has. -/
def moduleAttributes (id : ValueId) (m : ModuleValue) : Infer (Table FoundName) := do
  let package := if m.isPackage then m.names else m.names.dropLast
  let name ← makeLiteral "str" (Text.dotted m.names)
  let file ← makeLiteral "str" m.path
  let packageName ← makeLiteral "str" (Text.dotted package)
  let mut attrs : List (String × ValueSet) :=
    [("__name__", .single name), ("__file__", .single file), ("__package__", .single packageName)]
  if !(← query (·.isBuiltins id)) then
    attrs := attrs ++ [("__doc__", ← builtinInstance "str")]
    if m.isPackage then
      attrs := attrs ++ [("__path__", ← builtinInstance "list")]
  return Table.ofList (attrs.map fun (name, values) =>
    (Text.ofString name, .synthetic (Text.ofString name) values))

/-- The layers of a module: its scope, its submodules, its fixed attributes and the modules it
imports by star. Positions do not matter in a descriptor. -/
def moduleLayers (id : ValueId) (m : ModuleValue) (fromInside : Bool) (limit : Option Position)
    (origin : Option Place) : Infer (List Layer) := do
  let scope ← inspect (·.scopeNode? id)
  let own : Layer :=
    if m.isDescriptor && !fromInside then .scope id scope none origin (.descriptor true)
    else .scope id scope (if m.isDescriptor then none else limit) origin .plain
  let submodules ← submoduleTable id m.names
  let attributes ← moduleAttributes id m
  let stars ← (← starModules id).mapM fun star => return (← layersOf star origin).head?.toList
  return own :: .table submodules :: .table attributes :: stars.flatten

/-- The layers of a class: its members, those of its metaclasses and those of the builtin `type`. -/
def classLayers (id : ValueId) (origin : Option Place) : Infer (List Layer) := do
  let own ← memberLayers id none origin
  let metas ← (← metaclasses id).ids.mapM fun cls => memberLayers cls (some id) origin
  let types ← builtinClass "type"
  let type ← query fun values => match types.ids.find? (· != id) with
    | none => []
    | some type => (values.classNode? type).toList.map fun node =>
      Layer.scope type (some node) none origin (.member type (some id))
  return own ++ metas.flatten ++ type

/-- The layers of an instance: what methods bind on it, then the members of its class. -/
def instanceLayers (id cls : ValueId) (origin : Option Place) : Infer (List Layer) := do
  let order ← order cls
  let attributes ← query fun values =>
    (order.filter fun cls => (values.classNode? cls).isSome).map fun cls =>
      Layer.selfAttributes id cls origin
  return attributes ++ (← memberLayers cls (some id) origin)

/-- Computes the layers of a value. -/
def computeLayers (id : ValueId) (fromInside : Bool) (limit : Option Position)
    (origin : Option Place) : Infer (List Layer) := do
  match ← query (·.get? id) with
  | none => return []
  | some (.module m) => moduleLayers id m fromInside limit origin
  | some (.cls ..) | some (.generic ..) =>
    if fromInside then return [.scope id (← query (·.classNode? id)) limit origin .plain]
    classLayers id origin
  | some (.execution ..) => return [.scope id (← inspect (·.scopeNode? id)) limit origin .execution]
  | some (.inst cls ..) => instanceLayers id cls origin
  | some (.compiled type _ isModule) =>
    if isModule then
      let members ← inspect fun s => (s.compiledModules[type]?.map (·.2)).getD []
      return [.table (members.map fun (name, values) => (name, .synthetic name values))]
    else
      return (← (← builtinClassNamed type).ids.mapM (memberLayers · (some id) origin)).flatten
  | some (.function ..) =>
    return (← (← builtinClass "function").ids.mapM (memberLayers · (some id) origin)).flatten
  | some (.wrapper kind wrapped ..) =>
    if kind == .typeVar then return []
    fun calls => calls.layers wrapped fromInside limit origin

/-- The layers of some contexts, each inside the next. Positions only matter up to the first
execution or module. -/
def chainLayers (contexts : List ValueId) (limit : Option Position) (origin : Option Place) :
    Infer (List Layer) :=
  match contexts with
  | [] => return []
  | context :: rest => do
    let id ←
      if (← query (·.function? context)).isSome then makeAnonymousExecution context
      else pure context
    let layers ← layersInside id limit origin
    let resets ← query fun values => (values.execution? id).isSome || (values.module? id).isSome
    return layers ++ (← chainLayers rest (if resets then none else limit) origin)

/-- The layers of the descriptors that overlay a module. -/
def overlayLayers (root : ValueId) (origin : Option Place) : Infer (List Layer) := do
  if !(← query (·.module? root)).any (!·.isDescriptor) then return []
  let overlays ← convert .descriptor root
  inspect fun s => (overlays.ids.filter fun id =>
      id != root && (s.values.module? id).any (·.isDescriptor)).map fun id =>
    .scope id (s.scopeNode? id) none origin (.descriptor false)

/-- All layers that are seen from inside a context: the contexts around it, the descriptors of its
module and the builtin names. -/
def globalLayers (context : ValueId) (limit : Option Position) (origin : Option Place) :
    Infer (List Layer) := do
  let chain ← chainLayers (← query (·.contexts context)) limit origin
  let root ← query (·.root context)
  let overlays ← overlayLayers root origin
  let builtins ← builtinsModule
  if builtins == root then return chain ++ overlays
  return chain ++ overlays ++ (← layersOf builtins origin).head?.toList

/-- The names that comprehensions around an origin bind, up to the first scope that is none and no
lambda. -/
def comprehensionNames (owner : ValueId) (name : Text) (origin : Place) :
    List Place → Infer (List FoundName)
  | [] => return []
  | scope :: rest => do
    if scope.isComprehension then
      let found ← scopeNames owner scope none (some origin) .plain name
      if found.isEmpty then comprehensionNames owner name origin rest else return found
    else if !scope.isLambda ||
        !(← inspect fun s => ((s.indexOf scope).lookup scope name).isEmpty) then
      return []
    else if (← inspect (·.scopeNode? owner)).any scope.same then
      match ← query (·.parent? owner) with
      | none => return []
      | some outer => comprehensionNames outer name origin rest
    else comprehensionNames owner name origin rest

/-- The names for an identifier that are seen from inside a context, as of a position. -/
def findNames (context : ValueId) (name : Text) (position : Option Position)
    (origin : Option Place) : Infer (List FoundName) := do
  let tree ← query (·.tree? context)
  let inner ← match origin with
    | none => pure []
    | some origin =>
      if tree == some origin.tree then comprehensionNames context name origin origin.scopesAround
      else pure []
  if !inner.isEmpty then return inner
  let limit := match origin, position with
    | some origin, some position => some (origin.lookupLimit position)
    | _, _ => position
  namesInFirst (← globalLayers context limit origin) name

end Infer

end NameInference
