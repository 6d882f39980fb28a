import Std.Data.HashMap
import NameInference.Scope.Binding

/-!
# The scope index

The bindings of a module by the scope they count for and by name. A binding counts for its own scope
unless the name is redirected there. Attributes that methods bind on their first parameter are kept
by class, star imports by scope.
-/

namespace NameInference

/-- The index of one module. -/
structure ScopeIndex where
  bindings : Std.HashMap (PlaceKey × Text) (List Binding) := {}
  names : Std.HashMap PlaceKey (List Text) := {}
  selfAttributes : Std.HashMap (PlaceKey × Text) (List SelfAttribute) := {}
  selfNames : Std.HashMap PlaceKey (List Text) := {}
  starImports : Std.HashMap PlaceKey (List Place) := {}

namespace ScopeIndex

/-- Appends to the list stored under a key. -/
def append {κ α : Type} [BEq κ] [Hashable κ] (table : Std.HashMap κ (List α)) (key : κ) (a : α) :
    Std.HashMap κ (List α) :=
  table.insert key (table.getD key [] ++ [a])

/-- Adds a name to the list stored under a key, unless it is there. -/
def note (table : Std.HashMap PlaceKey (List Text)) (key : PlaceKey) (isNew : Bool) (name : Text) :
    Std.HashMap PlaceKey (List Text) :=
  if isNew then table.insert key (name :: table.getD key []) else table

/-- The scope that a binding counts for. -/
def home (b : Binding) : Place := (b.scope.redirect? b.id).getD b.scope

/-- The index with one more entry. -/
def add (index : ScopeIndex) : IndexEntry → ScopeIndex
  | .binding b =>
    let key := (home b).key
    { index with
      bindings := append index.bindings (key, b.id) b
      names := note index.names key (!index.bindings.contains (key, b.id)) b.id }
  | .selfAttribute owner name a =>
    { index with
      selfAttributes := append index.selfAttributes (owner.key, name) a
      selfNames :=
        note index.selfNames owner.key (!index.selfAttributes.contains (owner.key, name)) name }
  | .starImport scope stmt => { index with starImports := append index.starImports scope.key stmt }

/-- The index of a module. -/
def ofModule (root : Place) : ScopeIndex := root.moduleEntries.foldl add {}

/-- The bindings of a name that count for a scope, in order of effect. -/
def lookup (index : ScopeIndex) (scope : Place) (name : Text) : List Binding :=
  index.bindings.getD (scope.key, name) []

/-- The names with bindings that count for a scope, in ascending order. -/
def namesOf (index : ScopeIndex) (scope : Place) : List Text :=
  Text.sort (index.names.getD scope.key [])

/-- Whether bindings of the name in the scope count for another one. -/
def isRedirected (scope : Place) (name : Text) : Bool := (scope.redirect? name).isSome

/-- The bindings of an attribute of the first parameter in the methods of a class. -/
def lookupSelf (index : ScopeIndex) (owner : Place) (name : Text) : List SelfAttribute :=
  index.selfAttributes.getD (owner.key, name) []

/-- The attributes that methods of a class bind on their first parameter, in ascending order. -/
def selfNamesOf (index : ScopeIndex) (owner : Place) : List Text :=
  Text.sort (index.selfNames.getD owner.key [])

/-- The star imports of a scope. -/
def starsOf (index : ScopeIndex) (scope : Place) : List Place := index.starImports.getD scope.key []

end ScopeIndex

end NameInference
