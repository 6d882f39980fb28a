import NameInference.Inference.Names
import NameInference.Value.Number

/-!
# Evaluating expressions

The values of expressions, of subscripts and of iteration, and the truth of values.
-/

namespace NameInference

namespace Value

/-- The truth of a value, if it is known. -/
def truth? {ν : Type} : Value ν → Option Bool
  | compiled type text isModule =>
    let is (name : String) : Bool := type == Text.ofString name
    if isModule then some true
    else if is "int" || is "float" || is "complex" then some (Number.isNonzero text)
    else if is "str" || is "bytes" then some (!text.isEmpty)
    else if is "bool" then some (text == "True")
    else if is "NoneType" then some false
    else if is "ellipsis" then some true
    else none
  | module _ | cls .. | generic .. | function .. | wrapper .. => some true
  | inst .. | execution .. => none

end Value

/-- The truth that all of several values have, if it is known of each and the same. -/
def commonTruth? : List (Option Bool) → Option Bool
  | [] => none
  | first :: rest => if rest.all (· == first) then first else none

namespace Infer

/-- The truth that all values of a set have. -/
def truthOf (set : ValueSet) : Infer (Option Bool) :=
  query fun values => commonTruth? (set.ids.map fun id => (values.get? id).bind Value.truth?)

/-- Computes what is known about a test. -/
def computeTest (context : ValueId) (node : Place) : Infer Reachability := do
  match ← truthOf (← eval context node) with
  | some true => return .reachable
  | some false => return .unreachable
  | none => return .unsure

/-- Instances of the builtin classes with a name that a display makes. -/
def displayInstance (context : ValueId) (display : Place) (name : String) : Infer ValueSet := do
  gather (← builtinClass name).ids (makeDisplay · display context)

/-- The value of a sign before a value; the sign of a literal goes into its text. -/
def signedValue (negative : Bool) (id : ValueId) : Infer ValueSet := do
  match ← query (·.get? id) with
  | some (.compiled type text _) =>
    if [Text.ofString "int", Text.ofString "float", Text.ofString "complex"].contains type then
      if negative then return .single (← intern (.compiled type (Number.negated text) false))
      else return .single id
    else instancesOf (← classOf id)
  | _ => instancesOf (← classOf id)

/-- The value of a unary operator. -/
def evalUnary (op : UnaryOp) (operand : ValueSet) : Infer ValueSet := do
  match op with
  | .not =>
    match ← truthOf operand with
    | some truth =>
      return .single (← makeLiteral "bool" (Text.ofString (if truth then "False" else "True")))
    | none => builtinInstance "bool"
  | .neg => collect operand.ids (signedValue true)
  | .pos => collect operand.ids (signedValue false)
  | .invert => sameKind operand

/-- The integer that an index is, if it has a single value that is an integer literal. -/
def integerIndex? (context : ValueId) (index : Place) : Infer (Option Int) := do
  let set ← eval context index
  query fun values =>
    match set.only?.bind values.get? with
    | some (.compiled type text false) => if type == "int" then Number.index? text else none
    | _ => none

/-- The element that an index selects, counted from the end if it is negative. -/
def selected? {α : Type} (elements : List α) (index : Int) : Option α :=
  let i := if index < 0 then index + elements.length else index
  if i < 0 then none else elements[i.toNat]?

/-- Whether the place is a slice. -/
def isSlice (p : Place) : Bool :=
  match p.node.form with
  | .slice .. => true
  | _ => false

/-- The value of a subscript of a dictionary display: the values whose key may be the index, or all
of them. -/
def subscriptEntries (scope : ValueId) (entries : List (Entry Place)) (wanted : ValueSet) :
    Infer ValueSet := do
  let (matched, all) ← entries.foldlM (fun (matched, all) entry => do
    match entry.key with
    | none => return (matched, all)
    | some key =>
      let values ← eval scope entry.value
      let keys ← eval scope key
      return (if (keys.inter wanted).isEmpty then matched else matched.join values,
        all.join values)) ((∅, ∅) : ValueSet × ValueSet)
  return if matched.isEmpty then all else matched

/-- The value of a subscript of a display. -/
def subscriptDisplay (id cls : ValueId) (display : Place) (scope : ValueId) (index : Place)
    (context : ValueId) : Infer ValueSet := do
  match display.form with
  | .comprehension .dict _ (some value) _ => eval scope value
  | .comprehension .list element _ _ =>
    if isSlice index then return .single (← makeInstance cls) else eval scope element
  | .dict entries => subscriptEntries scope entries (← eval context index)
  | .list elements | .tuple elements =>
    if isSlice index then return .single (← makeInstance cls)
    if elements.any Place.isStarred then return ← iterateOne id
    match (← integerIndex? context index).bind (selected? elements) with
    | some element => eval scope element
    | none => collect elements (eval scope)
  | _ => return ∅

/-- The value of a subscript of the content of a `*args` or `**kwargs` parameter. -/
def subscriptPacked (cls : ValueId) (packed : List ValueSet) (index : Place) (context : ValueId) :
    Infer ValueSet := do
  let position ←
    if (← query (·.name cls)) == "tuple" then integerIndex? context index
    else pure none
  return (position.bind (selected? packed)).getD (ValueSet.ofSets packed)

/-- The value of a subscript by what the class of a value says. -/
def subscriptByMethod (id : ValueId) (index : Place) (context : ValueId) : Infer ValueSet := do
  if ← query (·.isWrapper .typeVar id) then return ∅
  let method ← attrOf id "__getitem__"
  if method.isEmpty then return ∅
  executeWithValues method [← eval context index]

/-- The value of a subscript of a value. -/
def subscriptOne (id : ValueId) (index : Place) (context : ValueId) : Infer ValueSet := do
  match ← query (·.get? id) with
  | some (.cls ..) | some (.generic ..) =>
    return .single (← defineGenerics id (← index.tupleElements.mapM (eval context)))
  | some (.inst cls _ (some (display, scope))) =>
    subscriptDisplay id cls display scope index context
  | some (.inst cls arguments none) =>
    let list ← argumentList arguments
    if list.isPacked then subscriptPacked cls list.values index context
    else subscriptByMethod id index context
  | _ => subscriptByMethod id index context

/-- The value of a subscript of some values. -/
def subscript (set : ValueSet) (index : Place) (context : ValueId) : Infer ValueSet :=
  collect set.ids (subscriptOne · index context)

/-- The items of a display. -/
def displayItems? (display : Place) (scope : ValueId) : Infer (Option ValueSet) := do
  match display.form with
  | .dict entries => some <$> collect (entries.filterMap (·.key)) (eval scope)
  | .comprehension _ element _ _ => some <$> eval scope element
  | .list elements | .tuple elements | .set elements =>
    some <$> collect elements fun element => do
      match element.form with
      | .starred value => iterate (← eval scope value)
      | _ => eval scope element
  | _ => return none

/-- The items that iteration over a value by its methods gives. -/
def iterateByMethod (id : ValueId) : Infer ValueSet := do
  if ← query fun values => values.isClass id || values.isModule id then return ∅
  let iterators ← executeWithValues (← attrOf id "__iter__") []
  executeWithValues (← attrOfAll iterators "__next__") []

/-- Computes the items that iteration over a value gives. -/
def computeIteration (id : ValueId) : Infer ValueSet := do
  match ← query (·.get? id) with
  | some (.inst cls arguments display) =>
    let items ← match display with
      | some (display, scope) => displayItems? display scope
      | none => pure none
    match items with
    | some items => return items
    | none =>
      let list ← argumentList arguments
      if !list.isPacked then iterateByMethod id
      else if (← query (·.name cls)) == "dict" then builtinInstance "str"
      else return ValueSet.ofSets list.values
  | some (.compiled type _ isModule) =>
    if isModule then return ∅
    else if type == "str" then builtinInstance "str"
    else if type == "bytes" then builtinInstance "int"
    else iterateByMethod id
  | _ => iterateByMethod id

/-- The values of a name that is read. -/
def readName (context : ValueId) (name : Place) (id : Text) : Infer ValueSet := do
  let names ← namesRead context name id
  if names.isEmpty then
    debug fun s => "name not found: " ++ id ++ " in " ++ s.values.describe context
  inferNames names

/-- The value of a subscript expression; special forms have values of their own. -/
def evalSubscript (context : ValueId) (value index : Place) : Infer ValueSet := do
  let special ← match ← specialForm? context value with
    | some form => specialSubscript? context form index
    | none => pure none
  match special with
  | some values => return values
  | none => subscript (← eval context value) index context

/-- Computes the values of an expression. -/
def computeEval (context : ValueId) (node : Place) : Infer ValueSet := do
  match node.form with
  | .name id => readName context node id
  | .attr value name _ => attrOfAll (← eval context value) name (some node)
  | .call callee _ _ =>
    let arguments ← internArguments { call := some node, context }
    executeAll (← eval context callee) arguments
  | .subscript value index => evalSubscript context value index
  | .int _ | .float _ | .imag _ | .string .. | .bytes _ | .bool _ | .noneLit | .ellipsis =>
    match ← literal? node with
    | some id => return .single id
    | none => builtinInstance "str"
  | .list _ => displayInstance context node "list"
  | .tuple _ => displayInstance context node "tuple"
  | .set _ => displayInstance context node "set"
  | .dict _ => displayInstance context node "dict"
  | .comprehension kind _ _ _ =>
    match kind with
    | .list => displayInstance context node "list"
    | .set => displayInstance context node "set"
    | .dict => displayInstance context node "dict"
    | .generator => displayInstance context node "generator"
  | .lambda .. => return .single (← makeFunction node context)
  | .unary op operand => evalUnary op (← eval context operand)
  | .binary _ left _ => sameKind (← eval context left)
  | .boolean _ operands => collect operands (eval context)
  | .compare .. => builtinInstance "bool"
  | .conditional body _ orElse => return (← eval context body).join (← eval context orElse)
  | .named _ value => eval context value
  | _ => return ∅

end Infer

end NameInference
