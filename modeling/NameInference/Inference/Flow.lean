import NameInference.Inference.Reachability
import NameInference.Scope.Enclosing

/-!
# Flow analysis

Whether a place is reached, as seen from an origin in the same scope. Only the tests of `if`
statements are evaluated, by a step that is given; loops and `try` statements leave the answer open.
-/

namespace NameInference

namespace Place

/-- The flow statements around a place up to its scope, innermost first. -/
def flowsAround (p : Place) : List Place :=
  match _h : p.governor? with
  | none => []
  | some flow => if flow.node.form.isScope then [] else flow :: flow.flowsAround
termination_by p.depth
decreasing_by exact depth_governorAlong _h

/-- Whether the place is an `if` statement. -/
def isIf (p : Place) : Bool :=
  match p.node.form with
  | .ifStmt .. => true
  | _ => false

/-- Whether the place is a `try` statement. -/
def isTry (p : Place) : Bool :=
  match p.node.form with
  | .tryStmt .. => true
  | _ => false

/-- The branch of a flow statement that holds a place; the header counts as the body. -/
def branchKey (flow p : Place) : Branch :=
  match flow.branchOf p with
  | .header => .body
  | branch => branch

/-- Whether a place and an origin are in the same branch of the innermost of the flow statements
around both in which this is decided; none if they exclude each other. Branches of an `if` exclude
each other, and so do a handler and the `else` of a `try` if the origin is in the latter. -/
def branchesMatch? (p origin : Place) (sofar : Bool) : List Place → Option Bool
  | [] => some sofar
  | flow :: rest =>
    let here := flow.branchKey p
    let there := flow.branchKey origin
    if here == there then some true
    else if flow.isIf || (flow.isTry && there == .orElse && here == .handler) then none
    else branchesMatch? p origin false rest

/-- What the positions of a place and an origin alone decide. -/
def verdictByOrigin? (p origin : Place) : Option Reachability :=
  let around := p.flowsAround
  let shared := origin.flowsAround.filter fun flow => around.any flow.same
  match branchesMatch? p origin true shared with
  | none => some .unreachable
  | some false => none
  | some true => if p.governor?.any (·.covers origin) then some .reachable else none

section Tests

variable {m : Type → Type} [Monad m] (check : Place → m Reachability)

/-- What a flow statement itself says about whether a place in it is reached. -/
def verdictOf (flow p : Place) : m Reachability :=
  match flow.form with
  | .ifStmt _ test _ _ =>
    match flow.branchOf p with
    | .orElse => return (← check test).invert
    | .body => check test
    | _ => return .reachable
  | .tryStmt .. | .whileStmt .. => return .unsure
  | _ => return .reachable

/-- What a flow statement and those around it say, up to the scope that the value belongs to. -/
def verdictUpTo (scope : Option PlaceKey) (p flow : Place) : m Reachability := do
  let here ← verdictOf check flow p
  if here != .reachable then return here
  if some flow.key == scope || flow.parent?.map key == scope || flow.node.form.isScope then
    return here
  match _h : flow.governor? with
  | none => return here.and .reachable
  | some outer => return here.and (← verdictUpTo scope p outer)
termination_by flow.depth
decreasing_by exact depth_governorAlong _h

/-- Whether a place is reached, as seen from an origin if there is one. -/
def reachability (scope : Option Place) (p : Place) (origin : Option Place) : m Reachability :=
  match origin.bind p.verdictByOrigin? with
  | some verdict => return verdict
  | none =>
    match p.governor? with
    | none => return .reachable
    | some flow => verdictUpTo check (scope.map key) p flow

end Tests

end Place

end NameInference
