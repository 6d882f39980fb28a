import NameInference.Inference.Arguments
import NameInference.Inference.SpecialForm

/-!
# Parameters and hints

The values of a parameter in an execution: those that its hint promises, or those of the arguments
it gets. Type variables in hints stand for the parameters of a generic receiver and for the values
of arguments.
-/

namespace NameInference

namespace Place

/-- The hint of a parameter. -/
def paramHint? (p : Place) : Option Place :=
  match p.form with
  | .param _ _ hint _ => hint
  | _ => none

/-- The default of a parameter. -/
def paramDefault? (p : Place) : Option Place :=
  match p.form with
  | .param _ _ _ default => default
  | _ => none

/-- How a parameter takes arguments. -/
def paramKind (p : Place) : ParamKind := p.paramSpec.kind

/-- The name of the decorator that makes a function a static method or a class method; the first one
counts. -/
def methodDecorator? (fn : Place) : Option Text :=
  match fn.form with
  | .functionDef _ _ decorators .. =>
    (decorators.filterMap Place.id?).find? fun id =>
      id == "staticmethod" || id == "classmethod"
  | _ => none

end Place

namespace Infer

/-- The expression that a string hint holds, which is parsed once; none if it is malformed. -/
def hintExpr? (literal : Place) (code : Text) : Infer (Option Place) := do
  match (← get).hintTrees[literal.key]? with
  | some expr => return expr
  | none =>
    let file ← inspect fun s => ((s.tree? literal.tree).map (·.module.file)).getD []
    let expr ← match Module.ofSource { text := code, file } with
      | .error e => do
        warn fun _ => "malformed string annotation: " ++ e.message
        pure none
      | .ok module => do
        let tree ← modifyGet (Session.storeTree module [])
        match (Place.root tree module).children with
        | [stmt] =>
          match stmt.form with
          | .exprStmt value => pure (some value)
          | _ => pure none
        | _ => pure none
    modify fun s => { s with hintTrees := s.hintTrees.insert literal.key expr }
    return expr

/-- Replaces type variables among the parameters of a generic class; one without values is dropped.
-/
def replaceTypeVars (values : Values) (bindings : TypeVarBindings) (set : ValueSet) : ValueSet :=
  ValueSet.ofSets (set.ids.map fun id =>
    if values.isWrapper .typeVar id then (bindings.lookup id).getD ∅ else .single id)

/-- Instances of the classes among the values, the other values as they are. -/
def instancesOrValues (set : ValueSet) : Infer ValueSet :=
  gather set.ids fun id => do if ← query (·.isClass id) then makeInstance id else pure id

/-- What a hint with a value promises. -/
def hintValue (bindings : TypeVarBindings) (id : ValueId) : Infer ValueSet := do
  match ← query (·.get? id) with
  | some (.cls ..) => return .single (← makeInstance id)
  | some (.generic cls parameters) =>
    let parameters ← query fun values => parameters.map (replaceTypeVars values bindings)
    return .single (← makeInstance (← makeGeneric cls parameters))
  | some (.wrapper .typeVar ..) =>
    match bindings.lookup id with
    | none => return ∅
    | some values => instancesOrValues values
  | some (.compiled _ _ isModule) => return if isModule then ∅ else .single id
  | _ => return ∅

/-- What a hint promises in a context. -/
def executeHint (context : ValueId) (hint : Place) (bindings : TypeVarBindings := []) :
    Infer ValueSet := do
  let expr? ← match hint.node.form with
    | .string code _ => hintExpr? hint code
    | _ => pure (some hint)
  match expr? with
  | none => return ∅
  | some expr =>
    if (← specialForm? context expr) == some "Any" then return ∅
    collect (← eval context expr).ids (hintValue bindings)

/-- A function as it is executed: its definition, the context of its definition, the class that owns
it and the arguments. -/
structure Frame where
  node : Place
  defining : ValueId
  owner : Option ValueId
  arguments : ArgumentList Place

/-- The function of an execution. -/
def frame? (execution : ValueId) : Infer (Option Frame) := inspect fun s => do
  let (function, arguments) ← s.values.execution? execution
  let (node, parent, owner) ← s.values.function? function
  return ⟨node, owner.getD parent, owner, s.argumentList arguments⟩

/-- The default of a parameter. -/
def defaultValue (frame : Frame) (param : Place) : Infer ValueSet :=
  match param.paramDefault? with
  | some default => eval frame.defining default
  | none => return ∅

/-- The first parameter of a method: the receiver, or the class for a class method; none if the
function is no method. -/
def receiverValue? (frame : Frame) (param : Place) : Infer (Option ValueSet) := do
  let isFirst := frame.node.params.head?.any (·.same param)
  match frame.owner, param.paramKind with
  | some owner, .positionalOnly | some owner, .positionalOrKeyword =>
    if !isFirst then return none
    let decorator := frame.node.methodDecorator?
    let receiver := frame.arguments.receiver
    if decorator == some "classmethod" then
      let values := (← get).values
      return some (.single ((receiver.filter values.isClass).getD owner))
    else if decorator == some "staticmethod" then return none
    else match receiver with
      | some id => return some (.single id)
      | none => return some (.single (← makeInstance owner))
  | _, _ => return none

/-- The values of a parameter when the caller is not known. -/
def anonymousValue (frame : Frame) (param : Place) : Infer ValueSet := do
  match ← receiverValue? frame param with
  | some values => return values
  | none =>
    match param.paramKind with
    | .varPositional => packedValue "tuple" []
    | .varKeyword => packedValue "dict" []
    | _ => defaultValue frame param

/-- The values that a parameter gets from the arguments of an execution. -/
def parameterValue (execution : ValueId) (param : Place) : Infer ValueSet := do
  match ← frame? execution with
  | none => return ∅
  | some frame =>
    if frame.arguments.isAnonymous then anonymousValue frame param
    else
      let (bound, _) ← matchArguments frame.node frame.arguments
      let number := frame.node.params.findIdx (·.same param)
      match bound.find? (·.param == number) with
      | none => defaultValue frame param
      | some b =>
        match param.paramKind with
        | .varPositional => packedValue "tuple" (← b.arguments.mapM argumentValue)
        | .varKeyword => packedValue "dict" (← b.arguments.mapM argumentValue)
        | _ =>
          if b.fromDefault || b.arguments.isEmpty then defaultValue frame param
          else collect b.arguments argumentValue

/-- Adds the values of a parameter for each new type variable that its hint is. -/
def bindTypeVars (execution defining : ValueId) (bindings : TypeVarBindings) (param : Place) :
    Infer TypeVarBindings := do
  match param.paramHint? with
  | none => return bindings
  | some hint =>
    let hinted ← eval defining hint
    hinted.ids.foldlM (fun bindings id => do
      if !(← query (·.isWrapper .typeVar id)) || (bindings.lookup id).isSome then return bindings
      let values ← parameterValue execution param
      return if values.isEmpty then bindings else bindings ++ [(id, values)]) bindings

/-- The values of the type variables in an execution: those of the class of the receiver, then those
that parameters with such a hint get. -/
def executionTypeVars (execution : ValueId) : Infer TypeVarBindings := do
  match ← frame? execution with
  | none => return []
  | some frame =>
    let cls? ← query fun values => do
      let receiver ← frame.arguments.receiver
      let cls := match values.get? receiver with
        | some (.inst cls ..) => cls
        | _ => receiver
      if values.isClass cls then some cls else none
    let own ← match cls? with
      | some cls => genericBindings cls
      | none => pure []
    frame.node.params.foldlM (bindTypeVars execution frame.defining) own

/-- Computes the values of a parameter in an execution. -/
def computeParam (param : Place) (execution : ValueId) : Infer ValueSet := do
  match ← frame? execution with
  | none => return ∅
  | some frame =>
    let promised ← match param.paramHint?, param.paramKind.isVariadic with
      | some hint, false => do executeHint frame.defining hint (← executionTypeVars execution)
      | _, _ => pure ∅
    if promised.isEmpty then parameterValue execution param else return promised

end Infer

end NameInference
