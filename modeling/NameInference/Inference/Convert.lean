import NameInference.Inference.Imports

/-!
# Descriptors and implementations

What a descriptor describes, and by what a value is described: the same names are followed from the
one module or from the other.
-/

namespace NameInference

/-- The two sides of a description. -/
inductive Side where
  | descriptor | implementation
  deriving DecidableEq, Repr

namespace Infer

/-- The descriptors of a module. -/
def moduleToDescriptor (module : ValueId) : Infer ValueSet := do
  match ← query (·.module? module) with
  | none => return ∅
  | some m =>
    if m.isDescriptor then return .single module
    let candidates ← importModule m.names
    query fun values => candidates.filter fun id =>
      (values.module? id).any fun d => d.isDescriptor && d.overlaid.contains module

/-- The modules that a module is implemented by. -/
def moduleToImplementation (module : ValueId) : Infer ValueSet := do
  match ← query (·.module? module) with
  | none => return ∅
  | some m => return if m.isDescriptor then m.overlaid.filter (· != module) else .single module

/-- The modules on the other side of a module. -/
def convertModule (side : Side) (module : ValueId) : Infer ValueSet :=
  match side with
  | .descriptor => moduleToDescriptor module
  | .implementation => moduleToImplementation module

/-- Follows attributes, as long as there are values. -/
def followNames (values : ValueSet) (names : List Text) : Infer ValueSet :=
  match names with
  | [] => return values
  | name :: rest =>
    if values.isEmpty then return values else do followNames (← attrOfAll values name) rest

/-- Converts what has a name in a module. -/
def convertNamed (side : Side) (value : ValueId) : Infer ValueSet := do
  let values := (← get).values
  if (side == .descriptor) == values.isStub value then return .single value
  match values.qualifiedNames? value with
  | none => return ∅
  | some names => followNames (← convertModule side (values.root value)) names

/-- The values on the given side that correspond to a value. -/
def convert (side : Side) (value : ValueId) : Infer ValueSet := do
  match ← query (·.get? value) with
  | some (.module _) => convertModule side value
  | none | some (.compiled ..) | some (.execution ..) => return ∅
  | some (.inst cls arguments display) =>
    if display.isSome then return ∅
    let converted ← if _h : cls < value then convert side cls else pure ∅
    let classes ← query fun values => converted.filter values.isClass
    gather classes.ids (makeInstance · arguments)
  | some (.wrapper .boundMethod wrapped (some receiver) _ _) =>
    let method ← query (·.name wrapped)
    let converted ← if _h : receiver < value then convert side receiver else pure ∅
    attrOfAll converted method
  | _ => convertNamed side value
termination_by value

end Infer

end NameInference
