/-!
# Reachability

Whether control gets somewhere, as far as it is known.
-/

namespace NameInference

/-- What is known about whether control gets somewhere. -/
inductive Reachability where
  | unreachable | reachable | unsure
  deriving DecidableEq, Repr, Inhabited

namespace Reachability

/-- The name under which it is shown. -/
def label : Reachability → String
  | unreachable => "unreachable"
  | reachable => "reachable"
  | unsure => "unsure"

/-- Both conditions at once; if one of them is not known, nothing is. -/
def and : Reachability → Reachability → Reachability
  | unsure, _ | _, unsure => unsure
  | reachable, reachable => reachable
  | _, _ => unreachable

/-- The opposite condition. -/
def invert : Reachability → Reachability
  | unreachable => reachable
  | reachable => unreachable
  | unsure => unsure

end Reachability

end NameInference
