import NameInference.Scope.Binding
import NameInference.Text.Table
import NameInference.Value.Set

/-!
# Found names and where they are looked for

A look-up goes through layers: scopes as they are seen from somewhere, attributes that methods give
to their instances, and fixed tables. It yields found names, each of which stands for values.
-/

namespace NameInference

/-- A name that a look-up found. -/
inductive FoundName where
  | tree (binding : Binding) (parent : ValueId)
  | param (binding : Binding) (execution : ValueId)
  | member (binding : Binding) (defining lookup : ValueId) (receiver : Option ValueId)
  | selfAttribute (attr : SelfAttribute) (receiver defining : ValueId)
  | context (value : ValueId) (name : Text) (position : Option Position)
  | synthetic (name : Text) (values : ValueSet)
  | submodule (package : ValueId) (names : List Text)

/-- How the bindings of a scope are seen: as they are, in an execution, as the names of a
descriptor, or as members of a class or of an instance of it. -/
inductive ScopeView where
  | plain
  | execution
  | descriptor (hidesPrivate : Bool)
  | member (lookup : ValueId) (receiver : Option ValueId)

/-- Where a name is looked for. -/
inductive Layer where
  | scope (context : ValueId) (scope : Option Place) (limit : Option Position)
      (origin : Option Place) (view : ScopeView)
  | selfAttributes (receiver defining : ValueId) (origin : Option Place)
  | table (names : Table FoundName)

namespace FoundName

/-- The binding, if the name is bound in a scope. -/
def binding? : FoundName → Option Binding
  | tree b _ | param b _ | member b _ _ _ => some b
  | _ => none

/-- The identifier. -/
def text : FoundName → Text
  | tree b _ | param b _ | member b _ _ _ => b.id
  | selfAttribute a _ _ =>
    match a.target.node.form with
    | .attr _ name _ => name
    | _ => []
  | context _ name _ => name
  | synthetic name _ => name
  | submodule _ names => names.getLast?.getD []

/-- Where the name stands in the source. -/
def position? : FoundName → Option Position
  | tree b _ | param b _ | member b _ _ _ => some b.name.start
  | selfAttribute a _ _ =>
    match a.target.node.form with
    | .attr _ _ nameAt => some nameAt
    | _ => none
  | context _ _ position => position
  | synthetic .. | submodule .. => none

/-- The context that the name belongs to. -/
def parent? : FoundName → Option ValueId
  | tree _ parent | param _ parent => some parent
  | member _ defining _ _ | selfAttribute _ _ defining => some defining
  | submodule package _ => some package
  | context .. | synthetic .. => none

/-- The place of the identifier that binds the name. -/
def treeName? (name : FoundName) : Option Place := name.binding?.map (·.name)

/-- Whether the name is imported. -/
def isImport : FoundName → Bool
  | tree b _ | param b _ | member b _ _ _ => b.kind == .importName || b.kind == .importFrom
  | submodule .. => true
  | _ => false

end FoundName

end NameInference
