import NameInference.Inference.Engine
import NameInference.Signature

/-!
# Queries

What a session can be asked: to load modules, for the context and the value at a position, for the
names that an identifier refers to, for signatures, for the other side of descriptors, and for the
faults of calls.
-/

namespace NameInference

namespace Place

/-- Whether a definition or lambda around a place holds it in its body, by the position of the
place. -/
def holdsAt (place : Place) (position : Position) (around : Place) : Bool :=
  match around.form with
  | .lambda _ body => (place.scope?.any (·.same around)) || body.covers place
  | .functionDef _ colon .. => colon.upTo position
  | .classDef colon .. => colon.upTo position
  | _ => false

/-- The context that a position belongs to: the innermost `def`, class or lambda whose body holds
it, or the module. Headers belong to the scope around. -/
def scopeAt (root : Place) (position : Position) : Place :=
  match root.deepestAt position with
  | none => root
  | some node => (node.upwards.find? (node.holdsAt position)).getD root

/-- The place of an identifier at a position. -/
def nameAt? (root : Place) (position : Position) (id : Text) : Option Place :=
  (root.deepestAt position).filter (·.id? == some id)

end Place

namespace Session

/-- The names by which a file is imported, relative to the longest search path that leads to it. A
folder that no search path leads to becomes one. -/
def importNamesFor (path : Text) (s : Session) : List Text × Session :=
  let leads := s.settings.searchPaths.map fun folder =>
    if folder.endsWith [0x2F] then folder else folder ++ [0x2F]
  let best := leads.foldl (fun best lead =>
    if path.startsWith lead && lead.length > best.length then lead else best) []
  let relative := if best.isEmpty then Files.nameOf path else path.drop best.length
  let endings := [s.settings.implementationExtension, s.settings.descriptorExtension]
  let stem := match endings.find? relative.endsWith with
    | some ending => relative.dropEnd ending.length
    | none => relative
  let parts := (stem.splitOn 0x2F).filter (!·.isEmpty)
  let names := if parts.getLast? == some (Text.ofString "__init__") then parts.dropLast else parts
  let folder := Files.directoryOf path
  if best.isEmpty && !folder.isEmpty && !s.settings.searchPaths.contains folder then
    (names, { s with settings :=
      { s.settings with searchPaths := s.settings.searchPaths ++ [folder] } })
  else (names, s)

/-- The module of a tree. -/
def loadTree (tree : Nat) (path : Text) (names : List Text) (s : Session) : ValueId × Session :=
  let file := Files.nameOf path
  let settings := s.settings
  s.internModule
    { tree := some tree
      names
      path
      isPackage := file == packageFile settings.implementationExtension
        || file == packageFile settings.descriptorExtension
      isDescriptor := path.endsWith settings.descriptorExtension }

/-- Loads the module in a file. -/
def loadModule (path : Text) : SessionM ValueId := do
  match (← get).modulesByPath[path]? with
  | some id => return id
  | none =>
    let tree ← parseFile path
    let names ← modifyGet (importNamesFor path)
    modifyGet (loadTree tree path names)

/-- Loads a module from its source. -/
def loadSource (code path : Text) (names : List Text) : SessionM ValueId := do
  let tree ← parseSource code path
  let names ← if names.isEmpty then modifyGet (importNamesFor path) else pure names
  modifyGet (loadTree tree path names)

/-- Registers a module without source. -/
def registerCompiled (name : Text) (members : Table ValueSet) (s : Session) : ValueId × Session :=
  let (id, s) := s.intern (.compiled name [] true)
  (id, { s with compiledModules := s.compiledModules.insert name (id, members) })

/-- The issues of a call. -/
def issuesFor (s : Session) (call : Place) : List Issue := s.issues.filter (·.call.same call)

end Session

namespace Infer

/-- The context of a scope in a module, built through the scopes around it. -/
def contextOfScope (module : ValueId) (scope : Place) : Infer ValueId :=
  let chain := (scope :: scope.scopesAround).filter Place.opensBody
  chain.reverse.foldlM (fun context node => do
    if node.isClass then makeClass node context
    else makeAnonymousExecution (← makeFunction node context)) module

/-- The context at a position in a module. -/
def contextAt (module : ValueId) (position : Position) : Infer ValueId := do
  match ← inspect (·.treeOf? module) with
  | none => return module
  | some tree => contextOfScope module (tree.root.scopeAt position)

/-- The place of an identifier at a position in the source of a context. -/
def originAt? (context : ValueId) (id : Text) (position : Position) : Infer (Option Place) :=
  inspect fun s => (s.treeOf? context).bind (·.root.nameAt? position id)

/-- The binding that an occurrence of a name is, with the context of its scope. -/
def bindingAt? (context : ValueId) (id : Text) (origin : Place) :
    Infer (Option (Binding × ValueId)) := do
  match origin.scope? with
  | none => return none
  | some owner =>
    let inner ← contextOfScope (← query (·.root context)) owner
    let bindings ← inspect fun s => (s.indexOf origin).lookup owner id
    return (bindings.find? (·.name.same origin)).map (·, inner)

/-- The values of an identifier at a position, seen from a context. An occurrence that binds the
identifier has the value that it binds. -/
def inferFrom (context : ValueId) (id : Text) (position : Position) : Infer ValueSet := do
  let origin ← originAt? context id position
  let global := do inferNames (← findNames context id (some position) origin)
  match origin with
  | none => global
  | some name =>
    if name.node.usage == .load then readName context name id
    else match ← bindingAt? context id name with
      | none => global
      | some (b, inner) =>
        if b.kind == .param then inferParam inner b.definition else inferBinding inner b

/-- The values of an identifier at a position in a module. -/
def inferAt (module : ValueId) (id : Text) (position : Position) : Infer ValueSet := do
  inferFrom (← contextAt module position) id position

/-- The values of the name, attribute, call or subscript at a position in a module. -/
def inferExpressionAt (module : ValueId) (position : Position) : Infer ValueSet := do
  match (← inspect (·.treeOf? module)).bind (·.root.deepestAt position) with
  | none => return ∅
  | some node =>
    match node.node.form with
    | .name id => inferAt module id position
    | .attr .. | .call .. | .subscript .. => eval (← contextAt module position) node
    | _ => return ∅

/-- What tells two found names apart. -/
def nameKey (name : FoundName) : Option PlaceKey × Text × Option ValueId × Position :=
  (name.treeName?.map Place.key, name.text, name.parent?, name.position?.getD ⟨0, 0⟩)

/-- The names that an identifier at a position refers to, seen from a context. -/
def gotoNames (context : ValueId) (id : Text) (position : Position) : Infer (List FoundName) := do
  let origin ← originAt? context id position
  let names ← findNames context id (some position) origin
  let targets := (← names.mapM targetsOf).flatten
  return targets.foldl (fun out t =>
    if out.any (nameKey · == nameKey t) then out else out ++ [t]) []

/-- The signature of a definition. -/
def signatureOf (node : Place) (isBound : Bool) (name : Option Text := none) : Infer Signature :=
  inspect fun s => Signature.ofCallable (((s.tree? node.tree).map (·.module)).getD default) node
    isBound name

/-- The signatures of a class: those of its initialisers. -/
def classSignatures (id : ValueId) : Infer (List Signature) := do
  let name ← query (·.name id)
  let inits ← namesInFirst (← layersOf id) "__init__"
  let defs := (inits.filterMap (·.binding?)).filter (·.kind == .functionDef)
  defs.mapM fun b => return { ← signatureOf b.definition true (some name) with returns := none }

/-- The signatures of a value; `depth` bounds how often calling it leads to calling another one. -/
def signatures (depth : Nat) (id : ValueId) : Infer (List Signature) := do
  match depth with
  | 0 => throw .nestedTooDeeply
  | depth + 1 =>
    let ofNode (isBound : Bool) : Infer (List Signature) := do
      match ← query (·.callableNode? id) with
      | none => return []
      | some node => return [← signatureOf node isBound]
    match ← query (·.get? id) with
    | some (.function ..) | some (.execution ..) => ofNode false
    | some (.cls ..) | some (.generic ..) => classSignatures id
    | some (.wrapper kind ..) =>
      match kind with
      | .property => return []
      | .boundMethod | .classMethod => ofNode true
      | .staticMethod | .typeVar => ofNode false
    | some (.inst ..) =>
      let calls ← attrOf id "__call__"
      return (← calls.ids.mapM (signatures depth)).flatten
    | _ => return []

/-- Converts values to the side of descriptors or to that of implementations. With `preferStubs`, a
value without a descriptor stays; a value without an implementation always does. -/
def convertValues (set : ValueSet) (onlyStubs preferStubs : Bool) : Infer ValueSet := indented do
  collect set.ids fun id => do
    let isStub ← query (·.isStub id)
    if onlyStubs || preferStubs then
      let converted ← if isStub then pure (.single id) else convert .descriptor id
      return if converted.isEmpty && preferStubs then .single id else converted
    else
      let converted ← if isStub then convert .implementation id else pure (.single id)
      return if converted.isEmpty then .single id else converted

/-- The name of a value where it is defined. -/
def definedName (id : ValueId) : Infer FoundName :=
  query fun values =>
    let node := match values.classNode? id with
      | some node => some node
      | none => values.functionNode? id
    .context id (values.name id) ((node.bind Place.definedAt?).map (·.start))

/-- Whether a name belongs to a descriptor. -/
def isInStub (name : FoundName) : Infer Bool := query fun values => name.parent?.any values.isStub

/-- The targets of a name in some values. -/
def targetsIn (set : ValueSet) (name : Text) : Infer (List FoundName) := do
  let found ← set.ids.mapM fun id => do
    let names ← namesInFirst (← layersOf id) name
    return (← names.mapM targetsOf).flatten
  return found.flatten

/-- The names of implementations for a name of a descriptor. -/
def implementationNames (name : FoundName) : Infer (List FoundName) := do
  if !(← isInStub name) then return [name]
  let found ← if (← nameType name) == "module" then do
      (← convertValues (← inferName name) false false).ids.mapM definedName
    else match name.parent? with
      | none => pure []
      | some parent => do
        let targets ← targetsIn (← convert .implementation parent) name.text
        targets.mapM fun target => return if ← isInStub target then name else target
  return if found.isEmpty then [name] else found

/-- The names of descriptors for a name that is no module. -/
def stubMemberNames (fallBack : Bool) (name : FoundName) : Infer (List FoundName) := do
  if ← isInStub name then return [name]
  let found ← match name.parent? with
    | none => pure []
    | some parent => do targetsIn (← convert .descriptor parent) name.text
  return if found.isEmpty && fallBack then [name] else found

/-- The names of descriptors for a name. An imported module leads to the modules and names that it
refers to. -/
def stubNames (fallBack : Bool) (name : FoundName) : Infer (List FoundName) := do
  if ← isInStub name then return [name]
  if (← nameType name) != "module" then return ← stubMemberNames fallBack name
  let names ← (← targetsOf name).mapM fun target => do
    if (← nameType target) == "module" then
      (← convertValues (← inferName target) true false).ids.mapM definedName
    else stubMemberNames fallBack target
  return if names.flatten.isEmpty && fallBack then [name] else names.flatten

/-- Converts names to the side of descriptors or to that of implementations. -/
def convertNames (names : List FoundName) (onlyStubs preferStubs : Bool) :
    Infer (List FoundName) := do
  let converted ←
    if onlyStubs || preferStubs then names.mapM (stubNames preferStubs)
    else names.mapM implementationNames
  return converted.flatten

/-- The calls in a module, each before those inside it. -/
def callsIn (root : Place) : List Place :=
  root.walk.filter fun p =>
    match p.node.form with
    | .call .. => true
    | _ => false

/-- Evaluates all calls of a module and gives the faults in it. -/
def collectIssues (module : ValueId) : Infer (List Issue) := do
  match ← inspect (·.treeOf? module) with
  | none => return []
  | some tree =>
    for call in callsIn tree.root do
      let _ ← eval (← contextAt module call.start) call
    inspect fun s => s.issues.filter (·.call.tree == tree.root.tree)

end Infer

end NameInference
