import Std.Data.HashMap

/-!
# Bounds on executions

Executions of functions nest and repeat. A guard keeps the stack of active executions and counts
those that were started, and says which ones to skip. Exempt executions take part in the stack only.
-/

namespace NameInference

/-- Bounds on nested and repeated executions. -/
structure CallLimits where
  nesting : Int := 15
  total : Int := 200
  perFunction : Int := 6
  perFunctionNesting : Int := 2
  deriving DecidableEq, Repr, Inhabited

/-- Active executions, innermost first, how deeply they nest, and the number of counted executions,
in all and by function. -/
structure CallGuard (φ : Type) [BEq φ] [Hashable φ] where
  active : List φ := []
  depth : Nat := 0
  started : Nat := 0
  perFunction : Std.HashMap φ Nat := {}

namespace CallGuard

variable {φ : Type} [BEq φ] [Hashable φ]

instance : Inhabited (CallGuard φ) := ⟨{}⟩

/-- Enters an execution, and says whether it has to be skipped. -/
def push (limits : CallLimits) (guard : CallGuard φ) (function : φ) (exempt : Bool) :
    Bool × CallGuard φ :=
  let entered := { guard with depth := guard.depth + 1, active := function :: guard.active }
  if exempt then (false, entered)
  else if limits.nesting < entered.depth then (true, entered)
  else if limits.total ≤ entered.started then (true, entered)
  else
    let counted := { entered with started := entered.started + 1 }
    let count : Nat := counted.perFunction.getD function 0
    if limits.perFunction ≤ count then (true, counted)
    else
      let counted := { counted with perFunction := counted.perFunction.insert function (count + 1) }
      (limits.perFunctionNesting < counted.active.count function, counted)

/-- Leaves the innermost execution, if there is one. -/
def pop (guard : CallGuard φ) : CallGuard φ :=
  { guard with active := guard.active.tail, depth := guard.depth - 1 }

end CallGuard

end NameInference
