import NameInference.CallGuard
import NameInference.Descriptor.Repository
import NameInference.Failure
import NameInference.Inference.Question
import NameInference.Memo
import NameInference.Report.Tally
import NameInference.Report.Trace
import NameInference.Scope.Index
import NameInference.Syntax.Grammar.Statement
import NameInference.Value.Describe

/-!
# Sessions

A session keeps all that later answers depend on: the parsed sources, the interned values and
argument lists, the answers so far, the modules by path and by name, and what was counted, traced
and found fault with.
-/

namespace NameInference

/-- A fault of a call. -/
structure Issue where
  kind : Text
  message : Text
  file : Text
  position : Position
  call : Place

namespace Issue

/-- What tells two issues apart. -/
def key (i : Issue) : PlaceKey × Text × Text × Position :=
  (i.call.key, i.kind, i.message, i.position)

/-- The kind and the message. -/
def diagnosis (i : Issue) : Text := i.kind ++ ": " ++ i.message

end Issue

/-- A parsed source with its root and its index. -/
structure SourceTree where
  module : Module
  root : Place
  index : Thunk ScopeIndex

/-- The source of a module that is kept under a number. -/
def SourceTree.ofModule (tree : Nat) (m : Module) : SourceTree :=
  ⟨m, .root tree m, Thunk.mk fun _ => ScopeIndex.ofModule (.root tree m)⟩

/-- The state of inference. -/
structure Session where
  files : Files := {}
  settings : Settings := {}
  descriptors : Table Text := []
  trees : Array SourceTree := #[]
  treesByPath : Std.HashMap Text Nat := {}
  hintTrees : Std.HashMap PlaceKey (Option Place) := {}
  values : Values := {}
  arguments : ArgumentLists := ArgumentLists.initial
  memo : Memo Question Answer := {}
  guard : CallGuard PlaceKey := {}
  modulesByPath : Std.HashMap Text ValueId := {}
  modulesByName : Std.HashMap Text ValueId := {}
  compiledModules : Std.HashMap Text (ValueId × Table ValueSet) := {}
  builtins : Option ValueId := none
  builtinClasses : Std.HashMap Text ValueSet := {}
  pendingClasses : List Text := []
  issues : List Issue := []
  tally : Tally := {}
  trace : Trace := {}

/-- Steps that change a session and may fail; what changed before a failure stays changed. -/
abbrev SessionM := ExceptT Failure (StateM Session)

namespace Session

/-- A new session. -/
def new (files : Files) (settings : Settings) (traced : Bool) : Session :=
  { files, settings, descriptors := files.descriptorTable settings,
    trace := { attached := traced } }

/-- The memo of a session. -/
def memoSlot : MemoSlot Session Question Answer where
  read := (·.memo)
  update f s :=
    let memo := s.memo
    let s := { s with memo := {} }
    { s with memo := f memo }

/-- The handle of a value. -/
def intern (value : Value Place) (s : Session) : ValueId × Session :=
  let values := s.values
  let s := { s with values := {} }
  let (id, values) := values.intern (·.map Place.key) value
  (id, { s with values })

/-- The handle of an argument list. -/
def internArguments (list : ArgumentList Place) (s : Session) : ArgumentsId × Session :=
  let arguments := s.arguments
  let s := { s with arguments := {} }
  let (id, arguments) := arguments.intern (·.map Place.key) list
  (id, { s with arguments })

/-- The argument list of a handle. -/
def argumentList (s : Session) (id : ArgumentsId) : ArgumentList Place :=
  (s.arguments.get? id).getD {}

/-- The parsed source of a tree number. -/
def tree? (s : Session) (tree : Nat) : Option SourceTree := s.trees[tree]?

/-- The parsed source that a value comes from. -/
def treeOf? (s : Session) (id : ValueId) : Option SourceTree := (s.values.tree? id).bind s.tree?

/-- The index of the tree that a place is in. -/
def indexOf (s : Session) (p : Place) : ScopeIndex := ((s.tree? p.tree).map (·.index.get)).getD {}

/-- The scope of a value in its source: a module, a class, a function or a lambda. -/
def scopeNode? (s : Session) (id : ValueId) : Option Place :=
  match s.values.get? id with
  | some (.module m) => (m.tree.bind s.tree?).map (·.root)
  | some (.cls node _) => some node
  | some (.function ..) | some (.execution ..) => s.values.callableNode? id
  | some (.generic cls _) => if _h : cls < id then s.scopeNode? cls else none
  | _ => none
termination_by id

/-- Records an issue, unless the same one is recorded. -/
def addIssue (issue : Issue) (s : Session) : Session :=
  if s.issues.any (·.key == issue.key) then s
  else { s with issues := s.issues ++ [issue], tally := s.tally.count "issues" }

/-- Keeps a parsed source, for its path if it has one. -/
def storeTree (module : Module) (path : Text) (s : Session) : Nat × Session :=
  let tree := s.trees.size
  (tree, { s with
    trees := s.trees.push (.ofModule tree module)
    treesByPath := if path.isEmpty then s.treesByPath else s.treesByPath.insert path tree })

/-- Writes a step to the trace. -/
def debug (message : Session → Text) (s : Session) : Session :=
  if s.trace.attached then { s with trace := s.trace.debug (message s) } else s

/-- Writes a warning to the trace. -/
def warn (message : Session → Text) (s : Session) : Session :=
  if s.trace.attached then { s with trace := s.trace.warn (message s) } else s

/-- The handle of a module. A new one is counted, and one that is no descriptor can be found by its
path and, unless another one has it, by its name. -/
def internModule (m : ModuleValue) (s : Session) : ValueId × Session :=
  let before := s.values.size
  let (id, s) := s.intern (.module m)
  if s.values.size == before then (id, s)
  else
    let s := { s with tally := s.tally.count "modules.loaded" }
    let s := s.debug fun s =>
      "loaded " ++ s.values.describe id ++ " from " ++ m.path
    if m.isDescriptor then (id, s)
    else
      let name := Text.dotted m.names
      (id, { s with
        modulesByPath := s.modulesByPath.insert m.path id
        modulesByName :=
          if name.isEmpty then s.modulesByName
          else s.modulesByName.insertIfNew name id })

/-- Parses a source and keeps its tree. -/
def parseSource (code path : Text) : SessionM Nat := do
  match Module.ofSource { text := code, file := path } with
  | .error e => throw (.malformed e)
  | .ok module => modifyGet (storeTree module path)

/-- The tree of a file, which is read and parsed once. -/
def parseFile (path : Text) : SessionM Nat := do
  let s ← get
  match s.treesByPath[path]? with
  | some tree => return tree
  | none =>
    match s.files.read path with
    | .error reason => throw (.unreadable path reason)
    | .ok code => parseSource code path

end Session

end NameInference
