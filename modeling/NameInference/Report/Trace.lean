import NameInference.Text

/-!
# The trace of a run

Lines about the steps of inference, indented by two blanks for each step around them. Nothing is
written while the trace is not attached.
-/

namespace NameInference

/-- The text written so far, last piece first, and the depth of the current step. -/
structure Trace where
  attached : Bool := false
  depth : Nat := 0
  pieces : List Text := []
  deriving Inhabited

namespace Trace

/-- Writes a line. -/
def write (trace : Trace) (level : String) (message : Text) : Trace :=
  if trace.attached then
    let line := Text.blanks (trace.depth * 2) ++ Text.ofString level ++ message ++ "\n"
    { trace with pieces := line :: trace.pieces }
  else trace

/-- Writes what a step does. -/
def debug (trace : Trace) (message : Text) : Trace := trace.write "dbg: " message

/-- Writes what a step could not do. -/
def warn (trace : Trace) (message : Text) : Trace := trace.write "warning: " message

/-- Enters a step. -/
def indent (trace : Trace) : Trace := { trace with depth := trace.depth + 1 }

/-- Leaves a step. -/
def outdent (trace : Trace) : Trace := { trace with depth := trace.depth - 1 }

/-- All text written so far. -/
def text (trace : Trace) : Text := trace.pieces.reverse.flatten

end Trace

end NameInference
