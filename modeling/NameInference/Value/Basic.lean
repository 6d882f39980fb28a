import NameInference.Syntax.Place
import NameInference.Value.Arena
import NameInference.Value.Set

/-!
# Values

What an expression can stand for: modules, classes, functions and their executions, instances,
literals, generic classes and wrappers around other values. Values refer to each other by handle and
to the source by nodes `ν`; with keys of places for nodes, equal values are one value.
-/

namespace NameInference

/-- The handle of an interned argument list. Handle 0 is the list of an unknown caller. -/
abbrev ArgumentsId := Nat

/-- What a wrapper makes of the value in it. -/
inductive WrapperKind where
  | boundMethod | property | staticMethod | classMethod | typeVar
  deriving DecidableEq, Hashable, Repr, Inhabited

/-- The name under which a kind of wrapper is shown. -/
def WrapperKind.label : WrapperKind → String
  | .boundMethod => "BoundMethod"
  | .property => "Property"
  | .staticMethod => "StaticMethod"
  | .classMethod => "ClassMethod"
  | .typeVar => "TypeVar"

/-- A module: its tree, the names it is imported by and the file it comes from. A descriptor module
overlays the modules that implement it. -/
structure ModuleValue where
  tree : Option Nat := none
  names : List Text := []
  path : Text := []
  isPackage : Bool := false
  isDescriptor : Bool := false
  overlaid : ValueSet := ∅
  deriving DecidableEq, Inhabited

/-- A value over the nodes it comes from. The parent of a class or function is the context of its
definition; a function in a class body has the class as owner and the first context around that is
no class as parent. -/
inductive Value (ν : Type) where
  | module (module : ModuleValue)
  | cls (node : ν) (parent : ValueId)
  | function (node : ν) (parent : ValueId) (owner : Option ValueId)
  | execution (function : ValueId) (arguments : ArgumentsId)
  | inst (cls : ValueId) (arguments : ArgumentsId) (display : Option (ν × ValueId))
  | compiled (type text : Text) (isModule : Bool)
  | generic (cls : ValueId) (parameters : List ValueSet)
  | wrapper (kind : WrapperKind) (wrapped : ValueId) (extra : Option ValueId) (label : Text)
      (node : Option ν)
  deriving DecidableEq

/-- The arguments of a call: the call and the context it is in, or values without a call, and the
receiver that a method is bound to. A packed list is the content of a `*args` tuple or a `**kwargs`
dictionary. -/
structure ArgumentList (ν : Type) where
  call : Option ν := none
  context : ValueId := 0
  values : List ValueSet := []
  receiver : Option ValueId := none
  isAnonymous : Bool := false
  isPacked : Bool := false
  deriving DecidableEq, Inhabited

/-- The hash of a handle that may be missing. -/
def hashHandle (id : Option ValueId) : UInt64 := hash (id.elim 0 (· + 1))

namespace Value

variable {ν μ : Type}

/-- The name under which a kind of value is shown. -/
def kindLabel : Value ν → String
  | module _ => "Module"
  | cls .. => "Class"
  | function .. => "Function"
  | execution .. => "FunctionExecution"
  | inst .. => "Instance"
  | compiled .. => "CompiledBuiltin"
  | generic .. => "GenericInstantiation"
  | wrapper .. => "Wrapper"

/-- Replaces the nodes. -/
def map (f : ν → μ) : Value ν → Value μ
  | module m => .module m
  | cls node parent => .cls (f node) parent
  | function node parent owner => .function (f node) parent owner
  | execution callee arguments => .execution callee arguments
  | inst type arguments display =>
    .inst type arguments (display.map fun (node, context) => (f node, context))
  | compiled type text isModule => .compiled type text isModule
  | generic base parameters => .generic base parameters
  | wrapper kind wrapped extra label node => .wrapper kind wrapped extra label (node.map f)

/-- The number of a kind of value, and what else its hash is made of. Whether a module is a package
is left out, and lists run into what stands behind them. -/
def hashed [Hashable ν] : Value ν → UInt64 × List UInt64
  | module m =>
    (0, hash m.tree :: m.names.map hash ++ [hash m.path, hash m.isDescriptor, hash m.overlaid])
  | cls node parent => (1, [hash node, hash parent])
  | function node parent owner => (2, [hash node, hash parent, hashHandle owner])
  | execution callee arguments => (3, [hash callee, hash arguments])
  | inst type arguments display =>
    (4, [hash type, hash arguments, hash (display.map (·.1)), hash (display.elim 0 (·.2))])
  | compiled type text isModule => (5, [hash type, hash text, hash isModule])
  | generic base parameters => (6, hash base :: parameters.map hash)
  | wrapper kind wrapped extra label node =>
    (7, [hash kind, hash wrapped, hashHandle extra, hash label, hash node])

instance [Hashable ν] : Hashable (Value ν) := ⟨fun value => hashParts value.hashed.1 value.hashed.2⟩

/-- A class, plain or generic. -/
def isClass : Value ν → Bool
  | cls .. | generic .. => true
  | _ => false

/-- A module, with or without source. -/
def isModule : Value ν → Bool
  | module _ => true
  | compiled _ _ isModule => isModule
  | _ => false

/-- An instance of a class, or a literal. -/
def isInstance : Value ν → Bool
  | inst .. => true
  | compiled _ _ isModule => !isModule
  | _ => false

/-- A wrapper of the given kind. -/
def isWrapper (kind : WrapperKind) : Value ν → Bool
  | wrapper k .. => k == kind
  | _ => false

end Value

namespace ArgumentList

/-- Replaces the call. -/
def map {ν μ : Type} (f : ν → μ) (list : ArgumentList ν) : ArgumentList μ :=
  { list with call := list.call.map f }

instance {ν : Type} [Hashable ν] : Hashable (ArgumentList ν) where
  hash list := hashParts 0 ([hash list.call, hash list.context] ++ list.values.map hash ++
    [hashHandle list.receiver, hash list.isAnonymous, hash list.isPacked])

end ArgumentList

/-- Interned values. -/
abbrev Values := Arena (Value Place) (Value PlaceKey)

/-- Interned argument lists. -/
abbrev ArgumentLists := Arena (ArgumentList Place) (ArgumentList PlaceKey)

namespace ArgumentLists

/-- Only the list of an unknown caller, under handle 0. -/
def initial : ArgumentLists := (Arena.intern (·.map Place.key) {} { isAnonymous := true }).2

end ArgumentLists

end NameInference
