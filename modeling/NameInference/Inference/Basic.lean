import NameInference.Inference.FoundName
import NameInference.Session

/-!
# Inference steps

Inference is one large recursion: evaluating an expression looks names up, looking up a name
evaluates tests, and so on. A step gets the steps that lead back into the recursion as `Calls`, so
that every other definition only uses what stands before it.
-/

namespace NameInference

/-- The steps that lead back into the recursion. -/
structure Calls where
  /-- The answer of a question, which is computed once. -/
  ask : (request : Request) → SessionM (Answer request.key)
  /-- The values of an attribute, as seen from an origin. -/
  attr : ValueId → Text → Option Place → SessionM ValueSet
  /-- The result of calling a value. -/
  execute : ValueId → ArgumentsId → SessionM ValueSet
  /-- The layers of a value; `fromInside` if its scope is looked at from inside. -/
  layers : ValueId → (fromInside : Bool) → Option Position → Option Place → SessionM (List Layer)
  /-- The names that a found name refers to. -/
  targets : FoundName → SessionM (List FoundName)

/-- A step of inference. -/
abbrev Infer := ReaderT Calls SessionM

namespace Infer

/-- The answer of a question. -/
def ask (request : Request) : Infer (Answer request.key) := fun calls => calls.ask request

/-- The values of an expression in a context. -/
def eval (context : ValueId) (node : Place) : Infer ValueSet := ask (.eval node context)

/-- The values that a binding gives to its name. -/
def inferBinding (context : ValueId) (binding : Binding) : Infer ValueSet :=
  ask (.binding binding context)

/-- The values of a parameter in an execution. -/
def inferParam (execution : ValueId) (param : Place) : Infer ValueSet :=
  ask (.param param execution)

/-- The result of an execution. -/
def run (execution : ValueId) : Infer ValueSet := ask (.execution execution)

/-- The items that iteration over a value gives. -/
def iterateOne (value : ValueId) : Infer ValueSet := ask (.iteration value)

/-- The method resolution order of a class. -/
def order (cls : ValueId) : Infer (List ValueId) := do
  if (← get).values.isClass cls then ask (.order cls) else return []

/-- What is known about a test in a context. -/
def check (context : ValueId) (node : Place) : Infer Reachability := ask (.test node context)

/-- The modules of the given names, descriptors preferred. -/
def importModule (names : List Text) : Infer ValueSet :=
  if names.isEmpty then return ∅ else ask (.importing names)

/-- The modules of the given names that implement them. -/
def importImplementation (names : List Text) : Infer ValueSet :=
  if names.isEmpty then return ∅ else ask (.implementation names)

/-- The values of an attribute of a value. -/
def attrOf (value : ValueId) (name : Text) (origin : Option Place := none) : Infer ValueSet :=
  fun calls => calls.attr value name origin

/-- The result of calling a value. -/
def execute (callee : ValueId) (arguments : ArgumentsId) : Infer ValueSet :=
  fun calls => calls.execute callee arguments

/-- The layers of a value as they are seen from outside. -/
def layersOf (value : ValueId) (origin : Option Place := none) : Infer (List Layer) :=
  fun calls => calls.layers value false none origin

/-- The layers of a context as they are seen from inside. -/
def layersInside (value : ValueId) (limit : Option Position) (origin : Option Place) :
    Infer (List Layer) :=
  fun calls => calls.layers value true limit origin

/-- The names that a found name refers to. -/
def targetsOf (name : FoundName) : Infer (List FoundName) := fun calls => calls.targets name

/-- What the interned values say. -/
def query {α : Type} (f : Values → α) : Infer α := return f (← get).values

/-- What the session says. -/
def inspect {α : Type} (f : Session → α) : Infer α := return f (← get)

/-- The union of what a step gives for each item. -/
def collect {α : Type} (items : List α) (f : α → Infer ValueSet) : Infer ValueSet :=
  items.foldlM (fun out item => return out.join (← f item)) ∅

/-- The set of what a step gives for each item. -/
def gather {α : Type} (items : List α) (f : α → Infer ValueId) : Infer ValueSet :=
  items.foldlM (fun out item => return out.insert (← f item)) ∅

/-- The items that iteration over some values gives. -/
def iterate (values : ValueSet) : Infer ValueSet := collect values.ids iterateOne

/-- The values of an attribute of some values. -/
def attrOfAll (values : ValueSet) (name : Text) (origin : Option Place := none) : Infer ValueSet :=
  collect values.ids (attrOf · name origin)

/-- The results of calling some values. -/
def executeAll (callees : ValueSet) (arguments : ArgumentsId) : Infer ValueSet :=
  collect callees.ids (execute · arguments)

/-- Writes a step to the trace. -/
def debug (message : Session → Text) : Infer Unit := modify (Session.debug message)

/-- Writes a warning to the trace. -/
def warn (message : Session → Text) : Infer Unit := modify (Session.warn message)

/-- Indents the trace during a step. -/
def indented {α : Type} (step : Infer α) : Infer α := do
  modify fun s => { s with trace := s.trace.indent }
  try step finally modify fun s => { s with trace := s.trace.outdent }

end Infer

end NameInference
