import NameInference.Files
import NameInference.Settings

/-!
# Shown faults

A fault is shown with the place where it is, and under it the line of the source with a caret below
the column.
-/

namespace NameInference

/-- A fault and where it is; a fault without a file is nowhere. -/
structure Diagnosis where
  message : Text
  file : Text := []
  line : Int := 0
  col : Int := 0

/-- Whether the environment asks for colors: any `NO_COLOR` forbids them, `PYINFER_COLOR` decides
otherwise. -/
def Environment.color? (environment : Environment) : Option Bool :=
  if (environment.get? "NO_COLOR").isSome then some false
  else
    let word := (environment.get? "PYINFER_COLOR").map (·.map Byte.toLower)
    let isOneOf (words : List String) : Bool :=
      word.any fun word => words.any (word == Text.ofString ·)
    if isOneOf ["1", "true", "yes", "always"] then some true
    else if isOneOf ["0", "false", "no", "never"] then some false
    else none

namespace Diagnosis

/-- The lines of a text; nothing behind the last line end is no line. -/
def linesOf (content : Text) : List Text :=
  let lines := content.splitOn 0x0A
  if lines.getLast? == some [] then lines.dropLast else lines

/-- The text within the codes that turn a style on and off. -/
def styled (colored : Bool) (style : String) (text : Text) : Text :=
  if colored then Text.ofString ("\x1b[" ++ style ++ "m") ++ text ++ "\x1b[0m" else text

/-- The place in front of the message. -/
def header (d : Diagnosis) (colored : Bool) : Text :=
  if d.file.isEmpty then []
  else styled colored "1" (d.file ++ ":" ++ Text.ofInt d.line ++ ":" ++ Text.ofInt d.col
    ++ ": ")

/-- The line of a source and a caret below its column. -/
def excerpt (line : Text) (col : Nat) : Text :=
  "  " ++ line ++ "\n  " ++ Text.blanks (col - 1) ++ "^\n"

/-- The excerpt of the file, if it has the line. -/
def source (d : Diagnosis) (files : Files) : Text :=
  if d.file.isEmpty || d.line ≤ 0 || d.col ≤ 0 then []
  else match (files.content? d.file).bind fun content => (linesOf content)[d.line.toNat - 1]? with
    | some line => excerpt line d.col.toNat
    | none => []

/-- The fault as it is shown. -/
def render (d : Diagnosis) (files : Files) (colored : Bool) : Text :=
  d.header colored ++ styled colored "31" "error: " ++ d.message ++ "\n"
    ++ d.source files

end Diagnosis

end NameInference
