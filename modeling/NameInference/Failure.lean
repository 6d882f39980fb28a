import NameInference.Token.Fault

/-!
# Failures

Inference goes on after most faults, but a source that cannot be read or parsed ends the request for
it.
-/

namespace NameInference

/-- Why a request has no answer. -/
inductive Failure where
  | unreadable (path reason : Text)
  | malformed (error : SyntaxError)
  | nestedTooDeeply

namespace Failure

/-- The message, up to its first zero byte. -/
def message : Failure → Text
  | unreadable path reason =>
    Text.untilZero ("cannot read source '" ++ path ++ "': " ++ reason)
  | malformed error => error.message
  | nestedTooDeeply => "nested too deeply"

/-- Whether a request that needed the answer can go on without it. -/
def isRecoverable : Failure → Bool
  | unreadable .. | malformed _ => true
  | nestedTooDeeply => false

end Failure

end NameInference
