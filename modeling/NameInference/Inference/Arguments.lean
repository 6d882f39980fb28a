import NameInference.Call.Matching
import NameInference.Inference.Make

/-!
# Arguments of calls

The arguments of a call with `*` and `**` spreads taken apart, and what each parameter gets from
them. A spread that is no display of known length leaves the number of arguments open.
-/

namespace NameInference

/-- What stands for the value of an argument: an expression in a context, or values. -/
inductive ArgumentSource where
  | expr (node : Place) (context : ValueId)
  | values (values : ValueSet)

/-- Arguments after spreads are taken apart. -/
structure UnpackedArguments where
  items : List (Argument ArgumentSource) := []
  isOpen : Bool := false

namespace Place

/-- What matching has to know of a parameter. -/
def paramSpec (p : Place) : ParamSpec :=
  match p.form with
  | .param kind name _ default => ⟨name.id?.getD [], kind, default.isSome⟩
  | _ => ⟨[], .positionalOrKeyword, false⟩

/-- What matching has to know of the parameters of a function. -/
def paramSpecs (fn : Place) : List ParamSpec := fn.params.map paramSpec

/-- The name of a function as messages show it. -/
def shownName (fn : Place) : Text := fn.definedName?.getD "<lambda>"

/-- Whether the place is a starred expression. -/
def isStarred (p : Place) : Bool :=
  match p.node.form with
  | .starred _ => true
  | _ => false

end Place

namespace Values

/-- The display that a single value is made by, and the context it is in. -/
def display? (values : Values) (set : ValueSet) : Option (Place × ValueId) :=
  match set.only?.bind values.get? with
  | some (.inst _ _ display) => display
  | _ => none

/-- The elements of a tuple or list display whose length is known, and the context they are in. -/
def displayElements? (values : Values) (set : ValueSet) : Option (List Place × ValueId) :=
  match values.display? set with
  | some (display, context) =>
    match display.form with
    | .tuple elements | .list elements =>
      if elements.any Place.isStarred then none else some (elements, context)
    | _ => none
  | none => none

/-- The entry of a dictionary display with a string key. -/
def stringEntry? (entry : Entry Place) : Option (Text × Place) :=
  match entry.key with
  | some key =>
    match key.node.form with
    | .string text _ => some (text, entry.value)
    | _ => none
  | none => none

/-- The entries of a dictionary display with string keys only, and the context they are in. -/
def displayKeywords? (values : Values) (set : ValueSet) : Option (List (Text × Place) × ValueId) :=
  match values.display? set with
  | some (display, context) =>
    match display.form with
    | .dict entries => (entries.mapM stringEntry?).map (·, context)
    | _ => none
  | none => none

end Values

namespace Infer

/-- The positional arguments that an argument expression stands for. -/
def unpackPositional (context : ValueId) (arg : Place) : Infer UnpackedArguments := do
  match arg.form with
  | .starred value =>
    let spread ← eval context value
    match ← query (·.displayElements? spread) with
    | some (elements, inner) =>
      return { items := elements.map fun e => { value := .expr e inner, position := e.start } }
    | none =>
      return { items := [{ value := .values (← iterate spread), position := arg.start }],
               isOpen := true }
  | _ => return { items := [{ value := .expr arg context, position := arg.start }] }

/-- The keyword arguments that a keyword stands for. -/
def unpackKeyword (context : ValueId) (keyword : Keyword Place) : Infer UnpackedArguments := do
  if !keyword.name.isEmpty then
    return { items := [⟨some keyword.name, .expr keyword.value context, keyword.position⟩] }
  let spread ← eval context keyword.value
  match ← query (·.displayKeywords? spread) with
  | some (entries, inner) =>
    return { items := entries.map fun (key, value) =>
      ⟨some key, .expr value inner, keyword.position⟩ }
  | none => return { isOpen := true }

/-- The arguments of an argument list, the receiver first. -/
def unpack (list : ArgumentList Place) : Infer UnpackedArguments := do
  let receiver : List (Argument ArgumentSource) := list.receiver.toList.map fun id =>
    { value := .values (.single id) }
  match list.call.map Place.form with
  | some (.call _ args keywords) =>
    let positional ← args.mapM (unpackPositional list.context)
    let named ← keywords.mapM (unpackKeyword list.context)
    let parts := positional ++ named
    return { items := receiver ++ parts.flatMap (·.items), isOpen := parts.any (·.isOpen) }
  | _ => return { items := receiver ++ list.values.map fun values => { value := .values values } }

/-- What each parameter of a function gets from an argument list, and the faults of its call. -/
def matchArguments (fn : Place) (list : ArgumentList Place) :
    Infer (List (BoundParam ArgumentSource) × List Issue) := do
  let unpacked ← unpack list
  let params := fn.paramSpecs
  let (bound, faults) := Matching.run params (list.call.isSome && !unpacked.isOpen) unpacked.items
  match list.call with
  | none => return (bound, [])
  | some call =>
    let file ← inspect fun s => ((s.tree? call.tree).map (·.module.file)).getD []
    let issues := faults.map fun fault =>
      { kind := fault.kind
        message := fault.message params fn.shownName unpacked.items.length
        file
        position := fault.position?.getD call.start
        call }
    return (bound, issues)

/-- Records the faults of a call of a function. -/
def recordIssues (fn : Place) (list : ArgumentList Place) : Infer Unit := do
  if list.call.isSome then
    for issue in (← matchArguments fn list).2 do
      modify (Session.addIssue issue)

/-- The values of an argument. -/
def argumentValue (argument : Argument ArgumentSource) : Infer ValueSet :=
  match argument.value with
  | .expr node context => eval context node
  | .values values => return values

end Infer

end NameInference
