import NameInference.Descriptor.Bundled
import NameInference.Inference.Classes

/-!
# Imports

How names of modules lead to modules. A module is looked for below the search paths, its descriptor
beside it, in stub packages, below the descriptor root and among the bundled ones; a descriptor
stands before what it describes.
-/

namespace NameInference

namespace Session

/-- The folder that holds the modules of a package, empty for other modules. -/
def packageFolder (s : Session) (module : ValueId) : Text :=
  match s.values.module? module with
  | some m => if m.isPackage then Files.directoryOf m.path else []
  | none => []

/-- The names of the modules in a package; those of the modules that a descriptor overlays are
added. -/
def submoduleNames (s : Session) (module : ValueId) : List Text :=
  match s.values.module? module with
  | none => []
  | some m =>
    if m.isPackage then
      let folder := Files.directoryOf m.path
      let extension :=
        if m.isDescriptor then s.settings.descriptorExtension
        else s.settings.implementationExtension
      let own := if folder.isEmpty then [] else s.files.submodules folder extension
      let overlaid := m.overlaid.ids.flatMap fun id =>
        if _h : id < module then s.submoduleNames id else []
      (Text.sort (own ++ overlaid)).eraseDups
    else []
termination_by module

/-- The names that a relative import from a module starts from, `level` dots up; none if it climbs
too far. -/
def relativeNames? (s : Session) (module : ValueId) (level : Int) (names : List Text) :
    Option (List Text) :=
  match s.values.module? module with
  | none => none
  | some m =>
    let base := if m.isPackage then m.names else m.names.dropLast
    let climbs := (level - 1).toNat
    if base.length < climbs then none else some (base.take (base.length - climbs) ++ names)

end Session

namespace Infer

/-- The module of a file that implements it. -/
def loadImplementation (located : LocatedModule) (names : List Text) : Infer ValueId := do
  let tree ← Session.parseFile located.path
  modifyGet (Session.internModule
    { tree := some tree, names, path := located.path, isPackage := located.isPackage })

/-- Computes the modules that implement the given names. -/
def computeImplementation (names : List Text) : Infer ValueSet := do
  let s ← get
  if let some loaded := s.modulesByName[Text.dotted names]? then return .single loaded
  let extension := s.settings.implementationExtension
  match names with
  | [] => return ∅
  | [name] =>
    if let some (compiled, _) := s.compiledModules[name]? then return .single compiled
    match s.settings.searchPaths.findSome? (s.files.locate? · name extension) with
    | some located => return .single (← loadImplementation located names)
    | none => return ∅
  | _ =>
    let parents ← importImplementation names.dropLast
    let located ← inspect fun s => parents.ids.filterMap fun parent =>
      let folder := s.packageFolder parent
      if folder.isEmpty then none else s.files.locate? folder (names.getLast?.getD []) extension
    gather located (loadImplementation · names)

/-- The descriptor in a file; one that cannot be read or parsed is skipped. -/
def descriptorFromFile (path : Text) (implementation : ValueSet) (names : List Text) :
    Infer (Option ValueId) := do
  let tree? ← try
      some <$> Session.parseFile path
    catch e =>
      if e.isRecoverable then
        warn fun _ => "skipping descriptor: " ++ e.message
        pure none
      else throw e
  match tree? with
  | none => return none
  | some tree =>
    let isPackage := Files.nameOf path == packageFile (← get).settings.descriptorExtension
    some <$> modifyGet (Session.internModule
      { tree := some tree, names, path, isPackage, isDescriptor := true,
        overlaid := implementation })

/-- The first descriptor that can be read from the given files. -/
def firstDescriptor (paths : List Text) (implementation : ValueSet) (names : List Text) :
    Infer (Option ValueId) :=
  match paths with
  | [] => return none
  | path :: rest => do
    match ← descriptorFromFile path implementation names with
    | some found => return some found
    | none => firstDescriptor rest implementation names

/-- The descriptor that is bundled for a module. -/
def bundledDescriptor (implementation : ValueSet) (names : List Text) : Infer (Option ValueId) := do
  match names with
  | [name] =>
    match Bundled.source? name with
    | none => return none
    | some source =>
      let path := "<bundled>/" ++ name ++ (← get).settings.descriptorExtension
      let tree ← Session.parseSource source path
      some <$> modifyGet (Session.internModule
        { tree := some tree, names, path, isDescriptor := true, overlaid := implementation })
  | _ => return none

/-- The files of descriptors to try, in order of precedence. -/
def descriptorCandidates (s : Session) (names : List Text) (implementation : ValueSet)
    (parent : Option ValueId) :
    List Text :=
  let settings := s.settings
  let extension := settings.descriptorExtension
  let last := names.getLast?.getD []
  let stubPackages := if names.length != 1 then [] else
    (settings.searchPaths.map fun folder =>
      Files.join (Files.join folder (last ++ settings.stubPackageSuffix))
        (packageFile extension)).filter s.files.isFile
  let siblings := (implementation.ids.filterMap s.values.module?).filterMap fun m =>
    let ending := settings.implementationExtension
    if m.path.length ≤ ending.length || !m.path.endsWith ending then none
    else some (m.path.dropEnd ending.length ++ extension) |>.filter s.files.isFile
  let registered :=
    if names.length == 1 then (s.descriptors.get? (describedBy last)).toList
    else match parent.bind s.values.module? with
      | some m =>
        if m.isPackage then
          ((s.files.locate? (Files.directoryOf m.path) last extension).map (·.path)).toList
        else []
      | none => []
  let loose := if !implementation.isEmpty || parent.isSome then [] else
    settings.searchPaths.filterMap fun folder =>
      (s.files.locate? (names.dropLast.foldl Files.join folder) last extension).map (·.path)
  stubPackages ++ siblings ++ registered ++ loose

/-- Computes the descriptor of a module. -/
def computeDescriptor (names : List Text) (implementation : ValueSet) (parent : Option ValueId) :
    Infer (Option ValueId) := do
  let paths ← inspect fun s => descriptorCandidates s names implementation parent
  let found ← match ← firstDescriptor paths implementation names with
    | some found => pure (some found)
    | none => bundledDescriptor implementation names
  let counter := if found.isSome then "descriptor.loaded" else "descriptor.missing"
  modify fun s => { s with tally := s.tally.count (Text.ofString counter) }
  if found.isNone then
    debug fun _ => "no descriptor for " ++ Text.dotted names
  return found

/-- Computes the modules of the given names. -/
def computeImport (names : List Text) : Infer ValueSet := do
  let implementation ← importImplementation names
  let parent ← if names.length ≤ 1 then pure none else do
    let parents ← importModule names.dropLast
    query fun values => parents.ids.find? fun id => (values.module? id).any (·.isDescriptor)
  match ← ask (.descriptor names implementation parent) with
  | some descriptor => return .single descriptor
  | none =>
    if implementation.isEmpty then
      warn fun _ => "module not found: " ++ Text.dotted names
    return implementation

/-- The module names and the number of dots of a `from` import. -/
def fromPart (stmt : Place) : List Text × Nat :=
  match stmt.node.form with
  | .importFrom module level _ _ => (module, level)
  | _ => ([], 0)

/-- The modules that a `from` import in a module names. -/
def importFromModule (module : ValueId) (stmt : Place) : Infer ValueSet := do
  let (names, level) := fromPart stmt
  if level == 0 then importModule names
  else match ← inspect (·.relativeNames? module level names) with
    | none => return ∅
    | some names => importModule names

/-- The values of an imported name. -/
def inferImport (context : ValueId) (item : Place) : Infer ValueSet := do
  match item.node.form, item.parent? with
  | .importItem path hasAs _, some stmt =>
    match stmt.node.form, path.getLast? with
    | .importStmt _, _ => importModule (if hasAs then path else path.take 1)
    | .importFrom names level _ _, some wanted =>
      let module ← query (·.root context)
      let base ←
        if level == 0 then pure (some names)
        else inspect (·.relativeNames? module level names)
      match base with
      | none => return ∅
      | some [] => importModule [wanted]
      | some base =>
        let found ← attrOfAll (← importModule base) wanted
        if found.isEmpty then importModule (base ++ [wanted]) else return found
    | _, _ => return ∅
  | _, _ => return ∅

/-- The modules whose names a module takes over by star imports, also through others. -/
def starModules (module : ValueId) : Infer (List ValueId) := do
  if (← query (·.module? module)).any (·.tree.isSome) then ask (.starModules module) else return []

/-- Computes the modules whose names a module takes over by star imports. -/
def computeStarModules (module : ValueId) (grow : (List ValueId → List ValueId) → Infer Unit) :
    Infer Unit := do
  let stmts ← inspect fun s => ((s.treeOf? module).map fun t => t.index.get.starsOf t.root).getD []
  for stmt in stmts do
    for target in (← importFromModule module stmt).ids do
      if target != module then
        grow (appendNew · target)
        for nested in ← starModules target do
          if nested != module then grow (appendNew · nested)

end Infer

end NameInference
